import EsModules.Syntax.Tree

/-!
# Scopes and references

A scope table lists the scopes of a module in the order in which they open, with the names each
one declares, and the references in the order of the text.  All declarations are entered before
any reference is looked up, so a declaration behind a reference shadows it all the same.

A `ScopeBuilder` walks over the code of a module once and fills its table.  The scope it is in is
part of its state: a construct that opens a scope moves into it and, behind its code, back to the
scope around it, which it looks up in the table.  So is the mark of a shorthand property, which the
next identifier uses up, whichever that is.
-/

namespace EsModules

open Syntax

/-- The construct that opens a scope. -/
inductive ScopeKind where
  | module
  | function
  | classBody
  | block
  | handler
  deriving DecidableEq, Repr, Inhabited

/-- A `var` declaration reaches no further than this scope. -/
def ScopeKind.isVarScope : ScopeKind → Bool
  | module => true
  | function => true
  | _ => false

/-- One scope. -/
structure Scope where
  kind : ScopeKind
  span : Span
  /-- The index of the scope around it. -/
  parent : Option Nat
  /-- The number of scopes around it. -/
  depth : Nat
  names : List String
  deriving DecidableEq, Repr, Inhabited

/-- The scope declares a name. -/
def Scope.declares (s : Scope) (name : String) : Bool :=
  s.names.contains name

/-- The declared names in the order of their code points. -/
def Scope.sortedNames (s : Scope) : List String :=
  s.names.mergeSort fun a b => decide (a ≤ b)

/-- Enters a name. -/
def Scope.declare (s : Scope) (name : String) : Scope :=
  if s.names.contains name then s else { s with names := s.names ++ [name] }

/-- An identifier that refers to a name. -/
structure Reference where
  name : String
  span : Span
  /-- The index of the innermost scope around it. -/
  scope : Nat
  shorthand : Bool
  deriving DecidableEq, Repr, Inhabited

/-- The scopes and references of a module. -/
structure ScopeTable where
  scopes : List Scope
  references : List Reference
  deriving DecidableEq, Repr, Inhabited

namespace ScopeTable

/-- The table of an empty module. -/
def empty : ScopeTable :=
  ⟨[⟨.module, ⟨0, 0⟩, none, 0, []⟩], []⟩

/-- A scope and the scopes around it, from the inside out, at most `limit` of them. -/
def enclosingUpTo (t : ScopeTable) : Nat → Nat → List Nat
  | 0, _ => []
  | limit + 1, id =>
      match t.scopes[id]? with
      | none => []
      | some s =>
          match s.parent with
          | some parent => id :: enclosingUpTo t limit parent
          | none => [id]

/-- A scope and the scopes around it, from the inside out. -/
def enclosing (t : ScopeTable) (id : Nat) : List Nat :=
  t.enclosingUpTo t.scopes.length id

/-- The scope with an index satisfies `p`. -/
def scopeIs (t : ScopeTable) (p : Scope → Bool) (id : Nat) : Bool :=
  (t.scopes[id]?.map p).getD false

/-- The scope in which a `var` declaration takes effect. -/
def varScope (t : ScopeTable) (id : Nat) : Nat :=
  ((t.enclosing id).find? (t.scopeIs (·.kind.isVarScope))).getD id

/-- The innermost scope around a place that declares a name. -/
def resolve (t : ScopeTable) (name : String) (id : Nat) : Option Nat :=
  (t.enclosing id).find? (t.scopeIs (·.declares name))

/-- A name refers to the declaration of the module itself. -/
def resolvesToModule (t : ScopeTable) (name : String) (id : Nat) : Bool :=
  match t.resolve name id with
  | some found => t.scopeIs (·.depth == 0) found
  | none => false

/-- The scope of a kind that a span opens; of several it is the last one. -/
def scopeAt? (t : ScopeTable) (span : Span) (kind : ScopeKind) : Option Nat :=
  (t.scopes.zipIdx.filter fun (s, _) => s.span == span && s.kind == kind).getLast?.map (·.2)

/-- The scope can be found by its span or by a reference in it. -/
def isFound (t : ScopeTable) (id : Nat) : Bool :=
  id == 0 || t.references.any (·.scope == id)
    || t.scopeIs (fun s => t.scopeAt? s.span s.kind == some id) id

/-- Opens a scope inside another one; answers its index. -/
def openScope (t : ScopeTable) (outer : Nat) (span : Span) (kind : ScopeKind) :
    Nat × ScopeTable :=
  let depth := (t.scopes[outer]?.map (·.depth + 1)).getD 0
  (t.scopes.length, { t with scopes := t.scopes ++ [⟨kind, span, some outer, depth, []⟩] })

/-- Enters names in a scope. -/
def declare (t : ScopeTable) (id : Nat) (names : List String) : ScopeTable :=
  { t with scopes := t.scopes.modify id fun s => names.foldl Scope.declare s }

/-- Records a reference. -/
def addReference (t : ScopeTable) (r : Reference) : ScopeTable :=
  { t with references := t.references ++ [r] }

end ScopeTable

mutual

/-- Adds the names that a pattern binds. -/
def collectNames (names : List String) : Pattern → List String
  | .name name => names ++ [name]
  | .object properties => collectAllNames names properties
  | .array elements => collectAllNames names elements
  | .rest target => collectNames names target
  | .withDefault target => collectNames names target

/-- Adds the names that several patterns bind. -/
def collectAllNames (names : List String) : List Pattern → List String
  | [] => names
  | pattern :: rest => collectAllNames (collectNames names pattern) rest

end

/-- The names that a pattern binds, in the order of the text. -/
def bindingNames (pattern : Pattern) : List String :=
  collectNames [] pattern

/-- The state of a walk over the code of a module. -/
structure ScopeBuilder where
  table : ScopeTable
  /-- The scope that the walk is in. -/
  current : Nat
  /-- The next identifier is that of a shorthand property. -/
  shorthand : Bool
  deriving DecidableEq, Repr, Inhabited

namespace ScopeBuilder

/-- The walk begins in the scope of the module. -/
def start : ScopeBuilder :=
  ⟨.empty, 0, false⟩

/-- Opens a scope and moves into it. -/
def enter (b : ScopeBuilder) (span : Span) (kind : ScopeKind) : ScopeBuilder :=
  let (inner, table) := b.table.openScope b.current span kind
  { b with table := table, current := inner }

/-- Moves to the scope around the current one. -/
def leave (b : ScopeBuilder) : ScopeBuilder :=
  match b.table.scopes[b.current]?.bind (·.parent) with
  | some parent => { b with current := parent }
  | none => b

/-- Enters names in a scope. -/
def declare (b : ScopeBuilder) (id : Nat) (names : List String) : ScopeBuilder :=
  { b with table := b.table.declare id names }

/-- Enters the names of patterns in a scope. -/
def declarePatterns (b : ScopeBuilder) (id : Nat) (patterns : List Pattern) : ScopeBuilder :=
  patterns.foldl (fun b pattern => b.declare id (bindingNames pattern)) b

/-- The scope in which a variable declaration takes effect. -/
def variableScope (b : ScopeBuilder) (kind : VariableKind) : Nat :=
  if kind == .var then b.table.varScope b.current else b.current

/-- Enters the name of a function or class: a declaration belongs to the scope around it. -/
def declareName (b : ScopeBuilder) (outer : Nat) (declared : Bool) (name : Option String) :
    ScopeBuilder :=
  b.declare (if declared then outer else b.current) name.toList

/-- Sets the mark of a shorthand property, or takes it away. -/
def mark (b : ScopeBuilder) (shorthand : Bool) : ScopeBuilder :=
  { b with shorthand := shorthand }

/-- Records an identifier, which uses up the mark. -/
def identifier (b : ScopeBuilder) (span : Span) (name : String) : ScopeBuilder :=
  { b with
    table := b.table.addReference ⟨name, span, b.current, b.shorthand⟩
    shorthand := false }

mutual

/-- Walks over a construct. -/
def visit (b : ScopeBuilder) : Node → ScopeBuilder
  | .reference span name => b.identifier span name
  | .property key value => ((b.visitAll key).visitAll value).mark false
  | .shorthand span name => ((b.mark true).identifier span name).mark false
  | .target span name value => ((b.mark true).identifier span name).visitAll value
  | .bindings kind patterns code =>
      (b.declarePatterns (b.variableScope kind) patterns).visitAll code
  | .function declared span name parameters head body =>
      let inner := (b.enter span .function).declareName b.current declared name
      (((inner.declarePatterns inner.current parameters).visitAll head).visitAll body).leave
  | .classDef declared span name code =>
      (((b.enter span .classBody).declareName b.current declared name).visitAll code).leave
  | .staticBlock code => b.visitAll code
  | .block span code => ((b.enter span .block).visitAll code).leave
  | .loop _ span code => ((b.enter span .block).visitAll code).leave
  | .switch span subject cases =>
      -- The value that is compared is computed outside the scope of the cases.
      (((b.visitAll subject).enter span .block).visitAll cases).leave
  | .handler span parameter code =>
      let inner := b.enter span .handler
      ((inner.declarePatterns inner.current parameter.toList).visitAll code).leave
  | .imports names => b.declare 0 names

/-- Walks over constructs one after the other. -/
def visitAll (b : ScopeBuilder) : List Node → ScopeBuilder
  | [] => b
  | node :: rest => (b.visit node).visitAll rest

end

end ScopeBuilder

/-- The table of a module. -/
def ScopeTable.build (program : Program) : ScopeTable :=
  (ScopeBuilder.start.visitAll (program.items.flatMap Item.code)).table

end EsModules
