import EsModules.Proofs.Scope.Walk
import EsModules.Proofs.Syntax.Layout
import Mathlib.Data.List.Nodup

/-!
# The discipline of the walk over a module

A `ScopeBuilder` keeps the scope it is in, and the mark of a shorthand property, in its state.  Code
that left it in another scope, or with a mark that no identifier has used up, would spoil everything
behind it.  `ScopeBuilder.ComesTo` follows the walk to every construct of the code, and wherever it
comes it is ready (`ComesTo.ready`), so that this never happens.

`ScopeBuilder.walk_disciplined` puts together what follows for the scopes and references of a
module.
-/

namespace EsModules
namespace Syntax

/-! ### Code inside code -/

/-- The code of a construct that the walk goes over before the construct takes effect. -/
def Node.before : Node → List Node
  | .switch _ subject _ => subject
  | _ => []

/-- All other code of a construct. -/
def Node.inside : Node → List Node
  | .reference _ _ => []
  | .property key value => key ++ value
  | .shorthand _ _ => []
  | .target _ _ value => value
  | .bindings _ _ code => code
  | .function _ _ _ _ head body => head ++ body
  | .classDef _ _ _ code => code
  | .staticBlock code => code
  | .block _ code => code
  | .loop _ _ code => code
  | .switch _ _ cases => cases
  | .handler _ _ code => code
  | .imports _ => []

/-- The construct is one of the pieces of code, or stands somewhere inside one of them. -/
inductive Node.StandsIn (node : Node) : List Node → Prop
  | here {code : List Node} :
      node ∈ code →
      StandsIn node code
  | before {outer : Node} {code : List Node} :
      outer ∈ code →
      StandsIn node outer.before →
      StandsIn node code
  | inside {outer : Node} {code : List Node} :
      outer ∈ code →
      StandsIn node outer.inside →
      StandsIn node code

theorem Node.StandsIn.mono
    {node : Node}
    {code code' : List Node}
    (h : node.StandsIn code)
    (hsub : code ⊆ code') :
    node.StandsIn code' := by
  cases h with
  | here hmem => exact .here (hsub hmem)
  | before hmem hparts => exact .before (hsub hmem) hparts
  | inside hmem hparts => exact .inside (hsub hmem) hparts

/-! ### Identifiers -/

/-- The identifier that a construct itself holds: its place, its name and whether it is the value of
a shorthand property or the target of one. -/
def Node.identifier? : Node → Option (Span × String × Bool)
  | .reference span name => some (span, name, false)
  | .shorthand span name => some (span, name, true)
  | .target span name _ => some (span, name, true)
  | _ => none

/-- The identifiers of code, each with its place, its name and its mark. -/
def identifiersOf (code : List Node) : List (Span × String × Bool) :=
  (occurrencesOf code).map fun o => (o.span, o.name, o.shorthand)

@[simp] theorem identifiersOf_append (as bs : List Node) :
    identifiersOf (as ++ bs) = identifiersOf as ++ identifiersOf bs := by
  rw [identifiersOf, occurrencesOf_append, List.map_append]
  rfl

/-- The identifiers of a construct are those of its code and its own. -/
theorem identifiersOf_cons (node : Node) (code : List Node) :
    identifiersOf (node :: code) =
      identifiersOf node.before ++ node.identifier?.toList ++ identifiersOf node.inside ++
        identifiersOf code := by
  have hwithin : ∀ scope : List String, ∀ found : List Occurrence,
      (found.map (·.within scope)).map (fun o => (o.span, o.name, o.shorthand)) =
        found.map fun o => (o.span, o.name, o.shorthand) := by
    intro scope found
    simp [Occurrence.within, Function.comp_def]
  cases node <;>
    simp [identifiersOf, occurrencesOf, Node.occurrences, Node.before, Node.inside,
      Node.identifier?, occurrencesOf_append, hwithin, -List.map_map]

theorem Node.StandsIn.mem_identifiersOf
    {node : Node}
    {code : List Node}
    {x : Span × String × Bool}
    (h : node.StandsIn code)
    (hx : node.identifier? = some x) :
    x ∈ identifiersOf code := by
  have hmem : ∀ {outer : Node} {code : List Node}, outer ∈ code →
      (x ∈ identifiersOf outer.before ∨ outer.identifier? = some x ∨
        x ∈ identifiersOf outer.inside) → x ∈ identifiersOf code := by
    intro outer code houter hx
    obtain ⟨front, back, rfl⟩ := List.append_of_mem houter
    simp only [identifiersOf_append, identifiersOf_cons, List.mem_append, Option.mem_toList]
    tauto
  induction h with
  | here hnode => exact hmem hnode (.inr (.inl hx))
  | before houter _ ih => exact hmem houter (.inl ih)
  | inside houter _ ih => exact hmem houter (.inr (.inr ih))

mutual

theorem Node.exists_standsIn
    (node : Node)
    {x : Span × String × Bool}
    (h : x ∈ identifiersOf [node]) :
    ∃ found : Node, found.StandsIn [node] ∧ found.identifier? = some x := by
  have hinside : (∃ found : Node, found.StandsIn node.inside ∧ found.identifier? = some x) →
      ∃ found : Node, found.StandsIn [node] ∧ found.identifier? = some x := by
    rintro ⟨found, hfound, hx⟩
    exact ⟨found, .inside (List.mem_singleton_self node) hfound, hx⟩
  rw [identifiersOf_cons, List.mem_append, List.mem_append, List.mem_append,
    Option.mem_toList] at h
  rcases h with ((hbefore | hself) | hparts) | hnil
  · cases node with
    | switch span subject cases =>
        obtain ⟨found, hfound, hx⟩ := exists_standsIn_of_mem subject hbefore
        exact ⟨found, .before (List.mem_singleton_self _) hfound, hx⟩
    | _ => cases hbefore
  · exact ⟨node, .here (List.mem_singleton_self node), hself⟩
  · apply hinside
    cases node with
    | property key value =>
        rw [Node.inside, identifiersOf_append, List.mem_append] at hparts
        rcases hparts with hkey | hvalue
        · obtain ⟨found, hfound, hx⟩ := exists_standsIn_of_mem key hkey
          exact ⟨found, hfound.mono (List.subset_append_left _ _), hx⟩
        · obtain ⟨found, hfound, hx⟩ := exists_standsIn_of_mem value hvalue
          exact ⟨found, hfound.mono (List.subset_append_right _ _), hx⟩
    | function declared span name parameters head body =>
        rw [Node.inside, identifiersOf_append, List.mem_append] at hparts
        rcases hparts with hhead | hbody
        · obtain ⟨found, hfound, hx⟩ := exists_standsIn_of_mem head hhead
          exact ⟨found, hfound.mono (List.subset_append_left _ _), hx⟩
        · obtain ⟨found, hfound, hx⟩ := exists_standsIn_of_mem body hbody
          exact ⟨found, hfound.mono (List.subset_append_right _ _), hx⟩
    | target span name value => exact exists_standsIn_of_mem value hparts
    | bindings kind patterns code => exact exists_standsIn_of_mem code hparts
    | classDef declared span name code => exact exists_standsIn_of_mem code hparts
    | staticBlock code => exact exists_standsIn_of_mem code hparts
    | block span code => exact exists_standsIn_of_mem code hparts
    | loop kind span code => exact exists_standsIn_of_mem code hparts
    | switch span subject cases => exact exists_standsIn_of_mem cases hparts
    | handler span parameter code => exact exists_standsIn_of_mem code hparts
    | _ => cases hparts
  · cases hnil

theorem exists_standsIn_of_mem
    (code : List Node)
    {x : Span × String × Bool}
    (h : x ∈ identifiersOf code) :
    ∃ found : Node, found.StandsIn code ∧ found.identifier? = some x := by
  cases code with
  | nil => cases h
  | cons node rest =>
      rw [← List.singleton_append, identifiersOf_append, List.mem_append] at h
      rcases h with hnode | hrest
      · obtain ⟨found, hfound, hx⟩ := node.exists_standsIn hnode
        exact ⟨found, hfound.mono (by simp), hx⟩
      · obtain ⟨found, hfound, hx⟩ := exists_standsIn_of_mem rest hrest
        exact ⟨found, hfound.mono (List.subset_cons_self _ _), hx⟩

end

end Syntax

open Syntax

/-! ### Looking names up -/

namespace ScopeTable

/-- Going outward from a scope, scope by scope and without a bound, a name is found in a scope, or
it is a global. -/
inductive Finds (t : ScopeTable) (name : String) : Nat → Option Nat → Prop
  | here {id : Nat} {s : Scope} :
      t.scopes[id]? = some s →
      s.declares name = true →
      Finds t name id (some id)
  | outward {id parent : Nat} {s : Scope} {answer : Option Nat} :
      t.scopes[id]? = some s →
      s.declares name = false →
      s.parent = some parent →
      Finds t name parent answer →
      Finds t name id answer
  | global {id : Nat} {s : Scope} :
      t.scopes[id]? = some s →
      s.declares name = false →
      s.parent = none →
      Finds t name id none

theorem Finds.unique
    {t : ScopeTable}
    {name : String}
    {id : Nat}
    {answer answer' : Option Nat}
    (h : t.Finds name id answer)
    (h' : t.Finds name id answer') :
    answer = answer' := by
  induction h with
  | here hs hdeclares => cases h' <;> simp_all
  | outward hs hdeclares hparent _ ih =>
      cases h' with
      | here => simp_all
      | outward hs' _ hparent' hrest =>
          obtain rfl := Option.some.inj (hs.symm.trans hs')
          obtain rfl := Option.some.inj (hparent.symm.trans hparent')
          exact ih hrest
      | global => simp_all
  | global hs hdeclares hparent => cases h' <;> simp_all

namespace Nested

variable {t : ScopeTable}

/-- Looking a name up comes to an end, since every step leads to an earlier scope. -/
theorem finds_resolve
    (h : t.Nested)
    (name : String)
    {id : Nat}
    (hid : id < t.scopes.length) :
    t.Finds name id (t.resolve name id) := by
  induction id using Nat.strongRecOn with
  | _ id ih =>
      have hs := List.getElem?_eq_getElem hid
      rw [h.resolve_eq hs]
      cases hdeclares : t.scopes[id].declares name with
      | true => exact .here hs hdeclares
      | false =>
          cases hp : t.scopes[id].parent with
          | none => exact .global hs hdeclares hp
          | some p =>
              have hlt := h.parent_lt hs hp
              exact .outward hs hdeclares hp (ih p hlt (by omega))

theorem finds_iff
    (h : t.Nested)
    {name : String}
    {id : Nat}
    {answer : Option Nat}
    (hid : id < t.scopes.length) :
    t.Finds name id answer ↔ answer = t.resolve name id := by
  constructor
  · intro hfinds
    exact hfinds.unique (h.finds_resolve name hid)
  · rintro rfl
    exact h.finds_resolve name hid

end Nested

end ScopeTable

/-! ### The way of the walk -/

namespace ScopeBuilder

/-- What the walk does at a construct before it goes over the code inside. -/
def arrive (b : ScopeBuilder) : Node → ScopeBuilder
  | .reference span name => b.identifier span name
  | .property _ _ => b
  | .shorthand span name => (b.mark true).identifier span name
  | .target span name _ => (b.mark true).identifier span name
  | .bindings kind patterns _ => b.declarePatterns (b.variableScope kind) patterns
  | .function declared span name parameters _ _ =>
      let inner := (b.enter span .function).declareName b.current declared name
      inner.declarePatterns inner.current parameters
  | .classDef declared span name _ =>
      (b.enter span .classBody).declareName b.current declared name
  | .staticBlock _ => b
  | .block span _ => b.enter span .block
  | .loop _ span _ => b.enter span .block
  | .switch span _ _ => b.enter span .block
  | .handler span parameter _ =>
      let inner := b.enter span .handler
      inner.declarePatterns inner.current parameter.toList
  | .imports names => b.declare 0 names

/-- What the walk does behind the code of a construct. -/
def depart (b : ScopeBuilder) : Node → ScopeBuilder
  | .property _ _ => b.mark false
  | .shorthand _ _ => b.mark false
  | .function _ _ _ _ _ _ => b.leave
  | .classDef _ _ _ _ => b.leave
  | .block _ _ => b.leave
  | .loop _ _ _ => b.leave
  | .switch _ _ _ => b.leave
  | .handler _ _ _ => b.leave
  | _ => b

theorem visitAll_append (b : ScopeBuilder) (as bs : List Node) :
    b.visitAll (as ++ bs) = (b.visitAll as).visitAll bs := by
  induction as generalizing b with
  | nil => rfl
  | cons node as ih => rw [List.cons_append, visitAll, visitAll, ih]

/-- The walk over a construct goes over the code before it, arrives, goes over the code inside and
departs. -/
theorem visit_eq (b : ScopeBuilder) (node : Node) :
    b.visit node =
      (((b.visitAll node.before).arrive node).visitAll node.inside).depart node := by
  cases node <;> simp [visit, visitAll, Node.before, Node.inside, arrive, depart, visitAll_append]

/-- Walking over code from the state `b`, the builder comes to a construct in the state `b'`. -/
inductive ComesTo : ScopeBuilder → List Node → ScopeBuilder → Node → Prop
  | here {b : ScopeBuilder} {node : Node} {rest : List Node} :
      ComesTo b (node :: rest) b node
  | before {b b' : ScopeBuilder} {node found : Node} {rest : List Node} :
      ComesTo b node.before b' found →
      ComesTo b (node :: rest) b' found
  | inside {b b' : ScopeBuilder} {node found : Node} {rest : List Node} :
      ComesTo ((b.visitAll node.before).arrive node) node.inside b' found →
      ComesTo b (node :: rest) b' found
  | behind {b b' : ScopeBuilder} {node found : Node} {rest : List Node} :
      ComesTo (b.visit node) rest b' found →
      ComesTo b (node :: rest) b' found

/-- The walk comes to each piece of code, and from there into its parts. -/
theorem exists_comesTo_of_mem
    {outer : Node}
    {code : List Node}
    (h : outer ∈ code)
    (b : ScopeBuilder) :
    ∃ b', ComesTo b code b' outer ∧
      (∀ b'' found, ComesTo b' outer.before b'' found → ComesTo b code b'' found) ∧
      ∀ b'' found, ComesTo ((b'.visitAll outer.before).arrive outer) outer.inside b'' found →
        ComesTo b code b'' found := by
  induction code generalizing b with
  | nil => cases h
  | cons node rest ih =>
      rcases List.mem_cons.mp h with rfl | h
      · exact ⟨b, .here, fun _ _ => .before, fun _ _ => .inside⟩
      · obtain ⟨b', hcomes, hbefore, hinside⟩ := ih h (b.visit node)
        exact ⟨b', .behind hcomes, fun b'' found hfound => .behind (hbefore b'' found hfound),
          fun b'' found hfound => .behind (hinside b'' found hfound)⟩

/-- The walk comes to every construct of the code. -/
theorem exists_comesTo
    {node : Node}
    {code : List Node}
    (h : node.StandsIn code)
    (b : ScopeBuilder) :
    ∃ b', ComesTo b code b' node := by
  induction h generalizing b with
  | here hmem =>
      obtain ⟨b', hcomes, -, -⟩ := exists_comesTo_of_mem hmem b
      exact ⟨b', hcomes⟩
  | before hmem _ ih =>
      obtain ⟨b', -, hbefore, -⟩ := exists_comesTo_of_mem hmem b
      obtain ⟨b'', hcomes⟩ := ih b'
      exact ⟨b'', hbefore b'' node hcomes⟩
  | @inside outer code hmem _ ih =>
      obtain ⟨b', -, -, hinside⟩ := exists_comesTo_of_mem hmem b
      obtain ⟨b'', hcomes⟩ := ih ((b'.visitAll outer.before).arrive outer)
      exact ⟨b'', hinside b'' node hcomes⟩

/-- Arriving at a construct, the walk stays where it is or moves into a scope. -/
theorem Ready.arrive
    {b : ScopeBuilder}
    (hb : b.Ready)
    (node : Node) :
    (b.arrive node).Ready := by
  cases node with
  | reference span name => exact (walked_visit (.reference span name) hb).ready hb
  | property key value => exact hb
  | shorthand span name => exact (hb.identifier true span name).ready hb
  | target span name value => exact (hb.identifier true span name).ready hb
  | bindings kind patterns code =>
      rw [ScopeBuilder.arrive, declarePatterns_eq]
      exact hb.declare _ _
  | function declared span name parameters head body =>
      exact (hb.moved_function declared span name parameters).ready
  | classDef declared span name code =>
      exact ((hb.enter span .classBody).declareName hb declared name).ready
  | staticBlock code => exact hb
  | block span code => exact (hb.enter span .block).ready
  | loop kind span code => exact (hb.enter span .block).ready
  | switch span subject cases => exact (hb.enter span .block).ready
  | handler span parameter code =>
      exact ((hb.enter span .handler).declarePatterns parameter.toList).ready
  | imports names => exact hb.declare 0 names

/-- Wherever the walk comes, it is ready. -/
theorem ComesTo.ready
    {b b' : ScopeBuilder}
    {code : List Node}
    {node : Node}
    (hcomes : ComesTo b code b' node)
    (hb : b.Ready) :
    b'.Ready := by
  induction hcomes with
  | here => exact hb
  | before _ ih => exact ih hb
  | inside _ ih => exact ih (((walked_visitAll _ hb).ready hb).arrive _)
  | @behind _ _ node _ _ _ ih =>
      exact ih ((walked_visit node hb).ready hb)

end ScopeBuilder

/-! ### References in order -/

namespace ScopeTable

/-- What a reference and its occurrence agree in, the references and the occurrences of a module
agree in. -/
theorem map_references_eq
    {α : Type}
    {f : Reference → α}
    {g : Occurrence → α}
    (program : Program)
    (h : ∀ r o, (build program).StandsFor 0 1 r o → f r = g o) :
    (build program).references.map f = program.occurrences.map g := by
  rw [← List.forall₂_eq_eq_eq, List.forall₂_map_left_iff, List.forall₂_map_right_iff]
  exact (build_references program).imp h

/-- The references record the identifiers of the module and nothing else. -/
theorem mem_references_iff
    (program : Program)
    (span : Span)
    (name : String)
    (shorthand : Bool) :
    (∃ r ∈ (build program).references, r.span = span ∧ r.name = name ∧ r.shorthand = shorthand) ↔
      ∃ node : Node, node.StandsIn program.code ∧
        node.identifier? = some (span, name, shorthand) := by
  have hrecorded : (∃ r ∈ (build program).references,
        r.span = span ∧ r.name = name ∧ r.shorthand = shorthand) ↔
      (span, name, shorthand) ∈
        (build program).references.map fun r => (r.span, r.name, r.shorthand) := by
    simp
  have hnodes : ((build program).references.map fun r => (r.span, r.name, r.shorthand)) =
      identifiersOf program.code :=
    map_references_eq program fun r o h => by rw [h.name, h.span, h.shorthand]
  rw [hrecorded, hnodes]
  exact ⟨exists_standsIn_of_mem program.code, fun ⟨_, h, hx⟩ => h.mem_identifiersOf hx⟩

/-- The references without a mark are the plain identifiers of the module. -/
theorem exists_plain_iff (program : Program) (span : Span) (name : String) :
    (∃ r ∈ (build program).references, r.span = span ∧ r.name = name ∧ r.shorthand = false) ↔
      (Node.reference span name).StandsIn program.code := by
  rw [mem_references_iff]
  constructor
  · rintro ⟨node, hnode, hx⟩
    cases node <;> simp_all [Node.identifier?]
  · intro h
    exact ⟨_, h, rfl⟩

/-- The marked references are the values of shorthand properties and the targets of shorthand
properties that are assigned to. -/
theorem exists_marked_iff (program : Program) (span : Span) (name : String) :
    (∃ r ∈ (build program).references, r.span = span ∧ r.name = name ∧ r.shorthand = true) ↔
      (Node.shorthand span name).StandsIn program.code ∨
        ∃ value, (Node.target span name value).StandsIn program.code := by
  rw [mem_references_iff]
  constructor
  · rintro ⟨node, hnode, hx⟩
    cases node with
    | shorthand span' name' =>
        simp only [Node.identifier?, Option.some.injEq, Prod.mk.injEq, and_true] at hx
        exact .inl (hx.1 ▸ hx.2 ▸ hnode)
    | target span' name' value =>
        simp only [Node.identifier?, Option.some.injEq, Prod.mk.injEq, and_true] at hx
        exact .inr ⟨value, hx.1 ▸ hx.2 ▸ hnode⟩
    | _ => simp [Node.identifier?] at hx
  · rintro (h | ⟨value, h⟩)
    · exact ⟨_, h, rfl⟩
    · exact ⟨_, h, rfl⟩

theorem spread_references
    {text : String}
    {program : Program}
    (h : Program.parse text = .ok program) :
    ∃ lo hi, Spread text.toList lo hi ((build program).references.map (·.span)) := by
  obtain ⟨first, middle, last, hlaid⟩ := Program.laidOut_of_parse h
  have hspans : (build program).references.map (·.span) = spansOf program.code :=
    map_references_eq program fun r o h => h.span
  exact ⟨middle, last, hspans ▸ hlaid.items.spread⟩

theorem scope_lt_of_mem_references
    {program : Program}
    {r : Reference}
    (hr : r ∈ (build program).references) :
    r.scope < (build program).scopes.length := by
  obtain ⟨o, -, hstands⟩ := exists_of_forall₂ (build_references program) hr
  obtain ⟨s, hs, -⟩ := (entered_build program).nested.root
  exact hstands.inside.lt (List.getElem?_eq_some_iff.mp hs).1

/-- In a module that is read from a text, a reference is marked if its identifier is the value or
the target of a shorthand property. -/
theorem shorthand_iff
    {text : String}
    {program : Program}
    (h : Program.parse text = .ok program)
    {r : Reference}
    (hr : r ∈ (build program).references) :
    r.shorthand = true ↔
      (Node.shorthand r.span r.name).StandsIn program.code ∨
        ∃ value, (Node.target r.span r.name value).StandsIn program.code := by
  rw [← exists_marked_iff]
  constructor
  · intro hmark
    exact ⟨r, hr, rfl, rfl, hmark⟩
  · rintro ⟨r', hr', hspan, -, hmark⟩
    obtain ⟨lo, hi, hspread⟩ := spread_references h
    obtain rfl : r' = r := List.inj_on_of_nodup_map hspread.nodup hr' hr hspan
    exact hmark

end ScopeTable

namespace ScopeBuilder

/-- The discipline of the walk over a module.

* The walk over a construct goes over the code before it, arrives, goes over the code inside and
  departs.  On this way it comes to every construct of the code.  Behind the construct it is back in
  the scope where it was, and no mark is pending.
* Every scope but the module lies in an earlier one and is one level deeper, so depth 0 is that of
  the module alone.
* Looking a name up, without a bound on the number of steps, comes to an end from every scope and in
  particular from that of a reference; the answer is the one of `ScopeTable.resolve`.
* The references are the identifiers of the code.  Those that are marked are the values of shorthand
  properties and the targets of shorthand properties that are assigned to; in a module that is read
  from a text this holds of each single reference.
* The references of a module that is read from a text follow one another without overlap. -/
theorem walk_disciplined (program : Program) :
    (∀ (b : ScopeBuilder) (node : Node), b.visit node =
      (((b.visitAll node.before).arrive node).visitAll node.inside).depart node) ∧
    (∀ node, node.StandsIn program.code → ∃ b, ComesTo start program.code b node) ∧
    (∀ b node, ComesTo start program.code b node →
      (b.visit node).current = b.current ∧ (b.visit node).shorthand = false) ∧
    (∀ id s, (ScopeTable.build program).scopes[id]? = some s →
      (s.parent = none ↔ id = 0) ∧ (s.depth = 0 ↔ id = 0) ∧
      (id ≠ 0 → ∃ p outer, s.parent = some p ∧ p < id ∧
        (ScopeTable.build program).scopes[p]? = some outer ∧ s.depth = outer.depth + 1)) ∧
    (∀ name id answer, id < (ScopeTable.build program).scopes.length →
      ((ScopeTable.build program).Finds name id answer ↔
        answer = (ScopeTable.build program).resolve name id)) ∧
    (∀ r ∈ (ScopeTable.build program).references,
      r.scope < (ScopeTable.build program).scopes.length) ∧
    (∀ span name,
      ((∃ r ∈ (ScopeTable.build program).references,
          r.span = span ∧ r.name = name ∧ r.shorthand = true) ↔
        (Node.shorthand span name).StandsIn program.code ∨
          ∃ value, (Node.target span name value).StandsIn program.code) ∧
      ((∃ r ∈ (ScopeTable.build program).references,
          r.span = span ∧ r.name = name ∧ r.shorthand = false) ↔
        (Node.reference span name).StandsIn program.code)) ∧
    ∀ text, Program.parse text = .ok program →
      (∀ r ∈ (ScopeTable.build program).references,
        r.shorthand = true ↔
          (Node.shorthand r.span r.name).StandsIn program.code ∨
            ∃ value, (Node.target r.span r.name value).StandsIn program.code) ∧
      (∀ r ∈ (ScopeTable.build program).references, r.span.start < r.span.stop) ∧
      (ScopeTable.build program).references.Pairwise fun r r' => r.span.stop ≤ r'.span.start := by
  have hnested := (ScopeTable.entered_build program).nested
  refine ⟨visit_eq, ?_, ?_, ?_, ?_, ?_, ?_, ?_⟩
  · intro node hnode
    exact exists_comesTo hnode start
  · intro b node hcomes
    have hwalked := walked_visit node (hcomes.ready ready_start)
    exact ⟨hwalked.current, hwalked.clear⟩
  · intro id s hs
    exact ⟨hnested.parent_eq_none_iff hs, hnested.depth_eq_zero_iff hs, hnested.inner id s hs⟩
  · intro name id answer hid
    exact hnested.finds_iff hid
  · intro r hr
    exact ScopeTable.scope_lt_of_mem_references hr
  · intro span name
    exact ⟨ScopeTable.exists_marked_iff program span name,
      ScopeTable.exists_plain_iff program span name⟩
  · intro text hparse
    obtain ⟨lo, hi, hspread⟩ := ScopeTable.spread_references hparse
    refine ⟨fun r hr => ScopeTable.shorthand_iff hparse hr, ?_,
      List.pairwise_map.mp hspread.ordered⟩
    intro r hr
    exact (hspread.inside r.span (List.mem_map_of_mem hr)).2.1

/-- A module that assigns through two shorthands, the second one with a default that refers to the
first name again. -/
def shorthandTargets : String :=
  "import odd from './odd';\nfunction f(o) \x7b (\x7b odd, even = odd \x7d = o); \x7d\n"

/-- The default is not marked, though it comes right behind a marked name. -/
theorem walk_disciplined_shorthandTargets :
    ∃ program node,
      Program.parse shorthandTargets = .ok program ∧
      (ScopeTable.build program).references.map (fun r => (r.span, r.name, r.shorthand)) =
        [(⟨44, 47⟩, "odd", true), (⟨49, 53⟩, "even", true), (⟨56, 59⟩, "odd", false),
          (⟨64, 65⟩, "o", false)] ∧
      (ComesTo start program.code start node ∧ (start.visit node).current = 0 ∧
        (start.visit node).shorthand = false) ∧
      ((Node.shorthand ⟨49, 53⟩ "even").StandsIn program.code ∨
        ∃ value, (Node.target ⟨49, 53⟩ "even" value).StandsIn program.code) ∧
      (Node.reference ⟨56, 59⟩ "odd").StandsIn program.code ∧
      (ScopeTable.build program).references.Pairwise fun r r' => r.span.stop ≤ r'.span.start := by
  have hread : ((Program.parse shorthandTargets).toOption.map fun p =>
      (p.code.length,
        (ScopeTable.build p).references.map fun r => (r.span, r.name, r.shorthand))) =
      some (2, [(⟨44, 47⟩, "odd", true), (⟨49, 53⟩, "even", true), (⟨56, 59⟩, "odd", false),
        (⟨64, 65⟩, "o", false)]) := by
    decide +kernel
  cases hparse : Program.parse shorthandTargets with
  | error fault => simp [hparse, Except.toOption] at hread
  | ok program =>
      simp only [hparse, Except.toOption, Option.map_some, Option.some.injEq,
        Prod.mk.injEq] at hread
      obtain ⟨hlength, hrefs⟩ := hread
      obtain ⟨-, -, hcomes, -, -, -, hrecorded, htext⟩ := walk_disciplined program
      have hmem : ∀ span name shorthand, (span, name, shorthand) ∈
          (ScopeTable.build program).references.map (fun r => (r.span, r.name, r.shorthand)) →
            ∃ r ∈ (ScopeTable.build program).references,
              r.span = span ∧ r.name = name ∧ r.shorthand = shorthand := by
        intro span name shorthand h
        simpa using h
      rw [hrefs] at hmem
      cases hcode : program.code with
      | nil => simp [hcode] at hlength
      | cons node rest =>
          have hhere : ComesTo start program.code start node := hcode ▸ .here
          exact ⟨program, node, rfl, hrefs, ⟨hhere, hcomes start node hhere⟩,
            (hrecorded _ _).1.mp (hmem _ _ _ (by decide)),
            (hrecorded _ _).2.mp (hmem _ _ _ (by decide)), (htext _ hparse).2.2⟩

end ScopeBuilder
end EsModules
