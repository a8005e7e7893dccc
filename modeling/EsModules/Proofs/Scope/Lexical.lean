import EsModules.Scope

/-!
# Lexical scoping

Which declaration an identifier refers to, read off the code alone.

A declaration belongs to a scope wherever in it the declaration stands:

* `let`, `const`, `using`, class and function declarations belong to the scope they stand in
  (`Node.blockNames`);
* a `var` declaration belongs to the nearest function, or to the module (`Node.varNames`);
* an import belongs to the module (`Node.importNames`).

Functions, classes, blocks, loops with a head of their own, the cases of a switch and catch clauses
are scopes; the value that a switch compares stands outside.  A function adds the names of its
parameters and, for an expression, its own name; a class expression adds its name; a catch clause
adds the names of its parameter.

`Node.occurrences` lists the identifiers of a piece of code with the names that each scope around
them declares.  No table is built and no order of visiting is involved.
-/

namespace EsModules
namespace Syntax

/-- An identifier that refers to a name. -/
structure Occurrence where
  name : String
  span : Span
  shorthand : Bool
  /-- The names of each scope around it inside the module, innermost first. -/
  around : List (List String)
  deriving DecidableEq, Repr, Inhabited

namespace Occurrence

/-- The same identifier, seen from outside one more scope. -/
def within (scope : List String) (o : Occurrence) : Occurrence :=
  { o with around := o.around ++ [scope] }

/-- Walking outward, the first scope that declares the name is the module with the names
`moduleNames`. -/
def refersToModule (moduleNames : List String) (o : Occurrence) : Prop :=
  (o.around ++ [moduleNames]).findIdx? (·.contains o.name) = some o.around.length

instance (moduleNames : List String) (o : Occurrence) :
    Decidable (o.refersToModule moduleNames) :=
  inferInstanceAs (Decidable (_ = _))

/-- The module is the first scope that declares a name if it declares it and no scope inside
does. -/
theorem refersToModule_iff
    (moduleNames : List String)
    (o : Occurrence) :
    o.refersToModule moduleNames ↔
      o.name ∈ moduleNames ∧ ∀ scope ∈ o.around, o.name ∉ scope := by
  unfold refersToModule
  rw [List.findIdx?_append]
  cases hinner : o.around.findIdx? (·.contains o.name) with
  | some i =>
      obtain ⟨hi, hmem, _⟩ := List.findIdx?_eq_some_iff_getElem.mp hinner
      constructor
      · intro h
        simp only [Option.some_or, Option.some.injEq] at h
        omega
      · rintro ⟨_, hnone⟩
        exact absurd (by simpa using hmem) (hnone _ (List.getElem_mem hi))
  | none =>
      have hnone : ∀ scope ∈ o.around, o.name ∉ scope := by
        simpa using List.findIdx?_eq_none_iff.mp hinner
      by_cases hmodule : o.name ∈ moduleNames
      · simpa [List.findIdx?_cons, hmodule] using hnone
      · simp [List.findIdx?_cons, hmodule]

end Occurrence

mutual

/-- The names that a piece of code declares in the scope it stands in. -/
def Node.blockNames : Node → List String
  | .reference _ _ => []
  | .property key value => blockNamesOf key ++ blockNamesOf value
  | .shorthand _ _ => []
  | .target _ _ value => blockNamesOf value
  | .bindings kind patterns code =>
      (if kind = .var then [] else namesOf patterns) ++ blockNamesOf code
  | .function declared _ name _ _ _ => if declared then name.toList else []
  | .classDef declared _ name _ => if declared then name.toList else []
  | .staticBlock code => blockNamesOf code
  | .block _ _ => []
  | .loop _ _ _ => []
  | .switch _ subject _ => blockNamesOf subject
  | .handler _ _ _ => []
  | .imports _ => []

/-- The names that several pieces of code declare in the scope they stand in. -/
def blockNamesOf : List Node → List String
  | [] => []
  | node :: rest => node.blockNames ++ blockNamesOf rest

end

mutual

/-- The names that a piece of code declares with `var`, outside the functions in it. -/
def Node.varNames : Node → List String
  | .reference _ _ => []
  | .property key value => varNamesOf key ++ varNamesOf value
  | .shorthand _ _ => []
  | .target _ _ value => varNamesOf value
  | .bindings kind patterns code =>
      (if kind = .var then namesOf patterns else []) ++ varNamesOf code
  | .function _ _ _ _ _ _ => []
  | .classDef _ _ _ code => varNamesOf code
  | .staticBlock code => varNamesOf code
  | .block _ code => varNamesOf code
  | .loop _ _ code => varNamesOf code
  | .switch _ subject cases => varNamesOf subject ++ varNamesOf cases
  | .handler _ _ code => varNamesOf code
  | .imports _ => []

/-- The names that several pieces of code declare with `var`, outside the functions in them. -/
def varNamesOf : List Node → List String
  | [] => []
  | node :: rest => node.varNames ++ varNamesOf rest

end

mutual

/-- The names that the import declarations in a piece of code bind. -/
def Node.importNames : Node → List String
  | .reference _ _ => []
  | .property key value => importNamesOf key ++ importNamesOf value
  | .shorthand _ _ => []
  | .target _ _ value => importNamesOf value
  | .bindings _ _ code => importNamesOf code
  | .function _ _ _ _ head body => importNamesOf head ++ importNamesOf body
  | .classDef _ _ _ code => importNamesOf code
  | .staticBlock code => importNamesOf code
  | .block _ code => importNamesOf code
  | .loop _ _ code => importNamesOf code
  | .switch _ subject cases => importNamesOf subject ++ importNamesOf cases
  | .handler _ _ code => importNamesOf code
  | .imports names => names

/-- The names that the import declarations in several pieces of code bind. -/
def importNamesOf : List Node → List String
  | [] => []
  | node :: rest => node.importNames ++ importNamesOf rest

end

/-- The names of a function's own scope. -/
def functionScope
    (declared : Bool)
    (name : Option String)
    (parameters : List Pattern)
    (head body : List Node) :
    List String :=
  (if declared then [] else name.toList) ++ namesOf parameters
    ++ (blockNamesOf head ++ blockNamesOf body) ++ (varNamesOf head ++ varNamesOf body)

/-- The names of a class's own scope. -/
def classScope (declared : Bool) (name : Option String) (code : List Node) : List String :=
  (if declared then [] else name.toList) ++ blockNamesOf code

/-- The names of a catch clause's own scope. -/
def handlerScope (parameter : Option Pattern) (code : List Node) : List String :=
  namesOf parameter.toList ++ blockNamesOf code

mutual

/-- The identifiers of a piece of code in the order of the text. -/
def Node.occurrences : Node → List Occurrence
  | .reference span name => [⟨name, span, false, []⟩]
  | .property key value => occurrencesOf key ++ occurrencesOf value
  | .shorthand span name => [⟨name, span, true, []⟩]
  | .target span name value => ⟨name, span, true, []⟩ :: occurrencesOf value
  | .bindings _ _ code => occurrencesOf code
  | .function declared _ name parameters head body =>
      (occurrencesOf head ++ occurrencesOf body).map
        (·.within (functionScope declared name parameters head body))
  | .classDef declared _ name code =>
      (occurrencesOf code).map (·.within (classScope declared name code))
  | .staticBlock code => occurrencesOf code
  | .block _ code => (occurrencesOf code).map (·.within (blockNamesOf code))
  | .loop _ _ code => (occurrencesOf code).map (·.within (blockNamesOf code))
  | .switch _ subject cases =>
      occurrencesOf subject ++ (occurrencesOf cases).map (·.within (blockNamesOf cases))
  | .handler _ parameter code =>
      (occurrencesOf code).map (·.within (handlerScope parameter code))
  | .imports _ => []

/-- The identifiers of several pieces of code in the order of the text. -/
def occurrencesOf : List Node → List Occurrence
  | [] => []
  | node :: rest => node.occurrences ++ occurrencesOf rest

end

namespace Program

/-- The code of a module. -/
def code (program : Program) : List Node :=
  program.items.flatMap Item.code

/-- The names of the module scope. -/
def scopeNames (program : Program) : List String :=
  blockNamesOf program.code ++ varNamesOf program.code ++ importNamesOf program.code

/-- The identifiers of a module in the order of the text. -/
def occurrences (program : Program) : List Occurrence :=
  occurrencesOf program.code

end Program
end Syntax

open Syntax

mutual

theorem collectNames_eq (names : List String) (pattern : Pattern) :
    collectNames names pattern = names ++ pattern.names := by
  cases pattern with
  | name name => rfl
  | object properties => exact collectAllNames_eq names properties
  | array elements => exact collectAllNames_eq names elements
  | rest target => exact collectNames_eq names target
  | withDefault target => exact collectNames_eq names target

theorem collectAllNames_eq (names : List String) (patterns : List Pattern) :
    collectAllNames names patterns = names ++ namesOf patterns := by
  cases patterns with
  | nil => simp [collectAllNames, namesOf]
  | cons pattern rest =>
      rw [collectAllNames, collectNames_eq, collectAllNames_eq _ rest, namesOf, List.append_assoc]

end

theorem bindingNames_eq (pattern : Pattern) : bindingNames pattern = pattern.names :=
  collectNames_eq [] pattern

theorem flatMap_bindingNames (patterns : List Pattern) :
    patterns.flatMap bindingNames = namesOf patterns := by
  induction patterns with
  | nil => rfl
  | cons pattern rest ih => rw [List.flatMap_cons, ih, bindingNames_eq, namesOf]

end EsModules
