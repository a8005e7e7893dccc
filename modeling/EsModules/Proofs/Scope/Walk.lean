import EsModules.Proofs.Scope.Table

/-!
# The table of a module

The walk over a module enters its code in the table as lexical scoping asks.  `Walked` says what it
does to the state: the code is entered in the scope where the walk is, and behind it the walk is
back in that scope and has no mark pending.  A construct that opens a scope moves the walk into it
(`Moved`), and `Walked.leave` leads back, since the table still says around which scope the
construct was opened.
-/

namespace EsModules

open Syntax

namespace ScopeTable

theorem declare_nil (t : ScopeTable) (id : Nat) : t.declare id [] = t := by
  have hsame : t.scopes.modify id (fun s => s) = t.scopes := List.modify_id id t.scopes
  simp only [declare, List.foldl_nil, hsame]

theorem declare_declare (t : ScopeTable) (id : Nat) (names names' : List String) :
    (t.declare id names).declare id names' = t.declare id (names ++ names') := by
  simp [declare, List.modify_modify_eq, Function.comp_def, List.foldl_append]

end ScopeTable

namespace ScopeBuilder

variable {b b₁ b₂ inner : ScopeBuilder} {kind : ScopeKind}
variable {own outer block hoisted imported block' hoisted' imported' : List String}
variable {found found' : List Occurrence}

theorem declarePatterns_eq (b : ScopeBuilder) (id : Nat) (patterns : List Pattern) :
    b.declarePatterns id patterns = b.declare id (namesOf patterns) := by
  induction patterns generalizing b with
  | nil => simp [declarePatterns, declare, namesOf, ScopeTable.declare_nil]
  | cons pattern rest ih =>
      have hrest := ih (b.declare id (bindingNames pattern))
      rw [declarePatterns] at hrest ⊢
      rw [List.foldl_cons, hrest, bindingNames_eq, namesOf]
      simp [declare, ScopeTable.declare_declare]

/-- The walk is in a scope of its table and has no mark pending. -/
structure Ready (b : ScopeBuilder) : Prop where
  nested : b.table.Nested
  current : b.current < b.table.scopes.length
  clear : b.shorthand = false

theorem ready_start : start.Ready :=
  ⟨ScopeTable.nested_empty, Nat.zero_lt_one, rfl⟩

/-- The walk goes from `b` to `b'` over code that declares `block` in its own scope, `hoisted` in
the function around it and `imported` in the module, and in which `found` occurs. -/
structure Walked
    (b b' : ScopeBuilder)
    (block hoisted imported : List String)
    (found : List Occurrence) :
    Prop where
  entered : b.table.Entered b'.table b.current block hoisted imported found
  current : b'.current = b.current
  clear : b'.shorthand = false

namespace Walked

theorem ready
    (h : Walked b b₁ block hoisted imported found)
    (hb : b.Ready) :
    b₁.Ready :=
  ⟨h.entered.nested, h.current ▸ Nat.lt_of_lt_of_le hb.current h.entered.extends_.length_le,
    h.clear⟩

theorem append
    (hb : b.Ready)
    (h₁ : Walked b b₁ block hoisted imported found)
    (h₂ : Walked b₁ b₂ block' hoisted' imported' found') :
    Walked b b₂ (block ++ block') (hoisted ++ hoisted') (imported ++ imported')
      (found ++ found') :=
  ⟨h₁.entered.append hb.nested hb.current (h₁.current ▸ h₂.entered),
    h₂.current.trans h₁.current, h₂.clear⟩

end Walked

namespace Ready

theorem nil (hb : b.Ready) : Walked b b [] [] [] [] :=
  ⟨.nil hb.nested b.current, rfl, hb.clear⟩

theorem mark_false (hb : b.Ready) : b.mark false = b := by
  obtain ⟨t, current, shorthand⟩ := b
  obtain rfl : shorthand = false := hb.clear
  rfl

/-- An identifier takes the mark and leaves none. -/
theorem identifier (hb : b.Ready) (shorthand : Bool) (span : Span) (name : String) :
    Walked b ((b.mark shorthand).identifier span name) [] [] [] [⟨name, span, shorthand, []⟩] where
  entered := by
    refine ⟨fun id s hs => ⟨s, hs, rfl, rfl, rfl⟩, ⟨hb.nested.root, hb.nested.inner⟩, ?_, ?_⟩
    · intro id hid x
      simp [ScopeBuilder.identifier, mark, ScopeTable.addReference, ScopeTable.namesAt]
    · exact ⟨[⟨name, span, b.current, shorthand⟩], rfl, .cons ⟨rfl, rfl, rfl, .here⟩ .nil⟩
  current := rfl
  clear := rfl

theorem variableScope_lt (hb : b.Ready) (kind : VariableKind) :
    b.variableScope kind < b.table.scopes.length := by
  rw [variableScope]
  split
  · exact Nat.lt_of_le_of_lt (hb.nested.varScope_le hb.current) hb.current
  · exact hb.current

theorem declare (hb : b.Ready) (id : Nat) (names : List String) : (b.declare id names).Ready :=
  ⟨hb.nested.declare id names, by simpa [ScopeBuilder.declare] using hb.current, hb.clear⟩

end Ready

/-! ### Constructs that open a scope -/

/-- The walk has moved from `b` into a scope that it has opened there, with the names `own`; the
names `outer` have been entered in the scope around it. -/
structure Moved (b inner : ScopeBuilder) (kind : ScopeKind) (own outer : List String) : Prop where
  opened : b.table.Opened inner.table b.current kind own outer
  current : inner.current = b.table.scopes.length
  clear : inner.shorthand = false

theorem Ready.enter (hb : b.Ready) (span : Span) (kind : ScopeKind) :
    Moved b (b.enter span kind) kind [] [] :=
  ⟨.openScope hb.nested hb.current span kind, rfl, hb.clear⟩

namespace Moved

theorem ready (h : Moved b inner kind own outer) : inner.Ready :=
  ⟨h.opened.nested, by rw [h.current, h.opened.length]; exact Nat.lt_succ_self _, h.clear⟩

theorem declareName
    (hb : b.Ready)
    (h : Moved b inner kind [] [])
    (declared : Bool)
    (name : Option String) :
    Moved b (inner.declareName b.current declared name) kind
      (if declared then [] else name.toList) (if declared then name.toList else []) := by
  refine ⟨?_, h.current, h.clear⟩
  have hopened := h.opened.declareName hb.current declared name.toList
  rwa [← h.current] at hopened

theorem declarePatterns
    (h : Moved b inner kind own outer)
    (patterns : List Pattern) :
    Moved b (inner.declarePatterns inner.current patterns) kind (own ++ namesOf patterns)
      outer := by
  rw [declarePatterns_eq]
  refine ⟨?_, h.current, h.clear⟩
  have hopened := h.opened.declareInner (namesOf patterns)
  rwa [← h.current] at hopened

end Moved

/-- Behind the code of a construct the table still says around which scope it was opened. -/
theorem Walked.leave
    (hb : b.Ready)
    (hinner : Moved b inner kind own outer)
    (h : Walked inner b₁ block hoisted imported found)
    (scope : List String)
    (hscope :
      ∀ x, x ∈ scope ↔ x ∈ own ∨ x ∈ block ∨ (kind.isVarScope = true ∧ x ∈ hoisted)) :
    Walked b b₁.leave outer (if kind.isVarScope then [] else hoisted) imported
      (found.map (·.within scope)) := by
  obtain ⟨s, hs, -, hparent⟩ := hinner.opened.last
  obtain ⟨s', hs', -, hparent', -⟩ := h.entered.extends_ _ s hs
  have hleave : b₁.leave = { b₁ with current := b.current } := by
    simp [ScopeBuilder.leave, h.current, hinner.current, hs', hparent', hparent]
  have hentered := h.entered
  rw [hinner.current] at hentered
  rw [hleave]
  exact ⟨hentered.scope hb.nested hb.current hinner.opened scope hscope, rfl, h.clear⟩

/-! ### The walk -/

theorem Ready.moved_function
    (hb : b.Ready)
    (declared : Bool)
    (span : Span)
    (name : Option String)
    (parameters : List Pattern) :
    let inner := (b.enter span .function).declareName b.current declared name
    Moved b (inner.declarePatterns inner.current parameters) .function
      ((if declared then [] else name.toList) ++ namesOf parameters)
      (if declared then name.toList else []) :=
  ((hb.enter span .function).declareName hb declared name).declarePatterns parameters

mutual

/-- The walk over a construct enters what lexical scoping finds in it. -/
theorem walked_visit
    (node : Node)
    {b : ScopeBuilder}
    (hb : b.Ready) :
    Walked b (b.visit node) node.blockNames node.varNames node.importNames node.occurrences := by
  cases node with
  | reference span name =>
      have hname := hb.identifier false span name
      rwa [hb.mark_false] at hname
  | property key value =>
      have hkey := walked_visitAll key hb
      have hvalue := walked_visitAll value (hkey.ready hb)
      have hboth := hkey.append hb hvalue
      exact ⟨hboth.entered, hboth.current, rfl⟩
  | shorthand span name =>
      have hname := hb.identifier true span name
      exact ⟨hname.entered, hname.current, rfl⟩
  | target span name value =>
      have hname := hb.identifier true span name
      exact hname.append hb (walked_visitAll value (hname.ready hb))
  | bindings kind patterns code =>
      have hcode := walked_visitAll code (hb.declare (b.variableScope kind) (namesOf patterns))
      rw [visit, declarePatterns_eq]
      refine ⟨?_, hcode.current, hcode.clear⟩
      refine .declaredFirst hb.nested hb.current (hb.variableScope_lt kind) (namesOf patterns)
        hcode.entered ?_
      intro id hid x
      by_cases hkind : kind = .var
      · simp only [variableScope, hkind, Node.blockNames, Node.varNames, Node.importNames,
          List.mem_append, List.nil_append, beq_self_eq_true, if_true]
        tauto
      · simp only [variableScope, hkind, Node.blockNames, Node.varNames, Node.importNames,
          List.mem_append, List.nil_append, beq_iff_eq, if_false]
        tauto
  | function declared span name parameters head body =>
      have hinner := hb.moved_function declared span name parameters
      have hhead := walked_visitAll head hinner.ready
      have hbody := walked_visitAll body (hhead.ready hinner.ready)
      refine (hhead.append hinner.ready hbody).leave hb hinner _ fun x => ?_
      simp only [functionScope, List.mem_append, ScopeKind.isVarScope, true_and]
      tauto
  | classDef declared span name code =>
      have hinner := (hb.enter span .classBody).declareName hb declared name
      refine (walked_visitAll code hinner.ready).leave hb hinner _ fun x => ?_
      simp [classScope, ScopeKind.isVarScope]
  | staticBlock code => exact walked_visitAll code hb
  | block span code =>
      have hinner := hb.enter span .block
      refine (walked_visitAll code hinner.ready).leave hb hinner _ fun x => ?_
      simp [ScopeKind.isVarScope]
  | loop kind span code =>
      have hinner := hb.enter span .block
      refine (walked_visitAll code hinner.ready).leave hb hinner _ fun x => ?_
      simp [ScopeKind.isVarScope]
  | switch span subject cases =>
      have hsubject := walked_visitAll subject hb
      have hready := hsubject.ready hb
      have hinner := hready.enter span .block
      have hcases := (walked_visitAll cases hinner.ready).leave hready hinner
        (blockNamesOf cases) (by simp [ScopeKind.isVarScope])
      have hboth := hsubject.append hb hcases
      rw [List.append_nil] at hboth
      exact hboth
  | handler span parameter code =>
      have hinner := (hb.enter span .handler).declarePatterns parameter.toList
      refine (walked_visitAll code hinner.ready).leave hb hinner _ fun x => ?_
      simp [handlerScope, ScopeKind.isVarScope]
  | imports names =>
      have hroot : 0 < b.table.scopes.length := Nat.lt_of_le_of_lt (Nat.zero_le _) hb.current
      refine ⟨⟨ScopeTable.extends_declare _ 0 names, hb.nested.declare 0 names, ?_, [], ?_, ?_⟩,
        rfl, hb.clear⟩
      · intro id hid x
        simp [visit, declare, ScopeTable.mem_namesAt_declare _ hroot, Node.blockNames,
          Node.varNames, Node.importNames]
      · simp [visit, declare, ScopeTable.declare]
      · simp [Node.occurrences]

/-- The walk over several constructs. -/
theorem walked_visitAll
    (nodes : List Node)
    {b : ScopeBuilder}
    (hb : b.Ready) :
    Walked b (b.visitAll nodes) (blockNamesOf nodes) (varNamesOf nodes) (importNamesOf nodes)
      (occurrencesOf nodes) := by
  cases nodes with
  | nil => exact hb.nil
  | cons node rest =>
      have hfirst := walked_visit node hb
      exact hfirst.append hb (walked_visitAll rest (hfirst.ready hb))

end

end ScopeBuilder

/-! ### The table of a module -/

namespace ScopeTable

theorem entered_build (program : Program) :
    Entered empty (build program) 0 (blockNamesOf program.code) (varNamesOf program.code)
      (importNamesOf program.code) program.occurrences :=
  (ScopeBuilder.walked_visitAll program.code ScopeBuilder.ready_start).entered

/-- The references of the table are the occurrences of the module, in the same order. -/
theorem build_references (program : Program) :
    List.Forall₂ ((build program).StandsFor 0 1) (build program).references
      program.occurrences := by
  obtain ⟨added, hrefs, hall⟩ := (entered_build program).references
  rw [hrefs]
  simpa [empty] using hall

/-- The module scope holds the names that lexical scoping gives it. -/
theorem mem_namesAt_build (program : Program) (x : String) :
    x ∈ (build program).namesAt 0 ↔ x ∈ program.scopeNames := by
  have hvar : empty.varScope 0 = 0 := by
    have := nested_empty.varScope_le Nat.zero_lt_one
    omega
  have hempty : empty.namesAt 0 = [] := rfl
  rw [(entered_build program).names 0 Nat.zero_lt_one x, hvar, hempty]
  simp [Program.scopeNames]

/-- A reference of the table refers to the module if its occurrence does. -/
theorem StandsFor.resolvesToModule_iff
    {program : Program}
    {r : Reference}
    {o : Occurrence}
    (h : (build program).StandsFor 0 1 r o) :
    (build program).resolvesToModule r.name r.scope = true ↔
      o.refersToModule program.scopeNames := by
  rw [(entered_build program).nested.resolvesToModule_iff h.inside, mem_namesAt_build,
    Occurrence.refersToModule_iff, h.name]

end ScopeTable
end EsModules
