import EsModules.Proofs.Catalog
import EsModules.Proofs.Scope.Walk
import EsModules.Proofs.Syntax.Layout
import EsModules.Transpile
import Mathlib.Data.List.Nodup

/-!
# Rewriting of references

An identifier is rewritten if it names an import and no scope between it and the module declares
the name.  The scope table, which decides this while transpiling, is replaced here by lexical
scoping (`renaming?`); that the places of two identifiers differ makes the decision one about each
identifier on its own.
-/

namespace EsModules
namespace Transpile

open Syntax

/-- The text that takes the place of an identifier which reads the import `i` from `handle`. -/
def renamed
    (format : FormatOptions)
    (o : Occurrence)
    (i : ImportEntry)
    (handle : String) :
    String :=
  let access := accessExpression handle i.kind format
  if o.shorthand then s!"{o.name}: {access}" else access

/-- The edit that lexical scoping asks for at an identifier. -/
def renaming? (program : Program) (view : ModuleView) (o : Occurrence) : Option Edit :=
  if o.refersToModule program.scopeNames then do
    let i ← view.catalog.importOf? o.name
    let handle ← view.catalog.handle? i.source
    some (.rename o.span (renamed view.format o i handle))
  else none

theorem requireHandle_of_mem
    {view : ModuleView}
    {source : String}
    (h : source ∈ view.catalog.sources) :
    ∃ handle,
      view.catalog.handle? source = some handle ∧ view.requireHandle source = .ok handle := by
  obtain ⟨handle, hhandle⟩ := Catalog.handle?_of_mem h
  exact ⟨handle, hhandle, by rw [ModuleView.requireHandle, hhandle]⟩

/-- The references are edited as lexical scoping asks. -/
theorem referenceEdits_eq
    {program : Program}
    {view : ModuleView}
    (hclosed : view.catalog.Closed)
    {references : List Reference}
    {occurrences : List Occurrence}
    (h : List.Forall₂ ((ScopeTable.build program).StandsFor 0 1) references occurrences) :
    referenceEdits (ScopeTable.build program) view references =
      .ok (occurrences.filterMap (renaming? program view)) := by
  induction h with
  | nil => rfl
  | @cons r o references occurrences hro _ ih =>
      have hscope := hro.resolvesToModule_iff
      rw [referenceEdits, List.filterMap_cons]
      by_cases hmodule : o.refersToModule program.scopeNames
      · have hresolves := hscope.mpr hmodule
        cases himport : view.catalog.importOf? o.name with
        | none =>
            simp [importRead?, renaming?, hmodule, hro.name, himport, ih]
        | some i =>
            have hmem := hclosed.imports i (List.mem_of_find?_eq_some himport)
            obtain ⟨handle, hhandle, hrequire⟩ := requireHandle_of_mem hmem
            have hread : importRead? (ScopeTable.build program) view.catalog r = some i := by
              rw [importRead?, if_pos hresolves, hro.name, himport]
            have htext : referenceText view r i = .ok (renamed view.format o i handle) := by
              rw [referenceText, hrequire, renamed, hro.name, hro.shorthand]
              rfl
            have hedit : renaming? program view o =
                some (.rename o.span (renamed view.format o i handle)) := by
              simp [renaming?, hmodule, himport, hhandle]
            rw [hread, hedit, ih]
            simp only [htext, hro.span]
            rfl
      · have hresolves : ¬(ScopeTable.build program).resolvesToModule r.name r.scope = true :=
          fun h => hmodule (hscope.mp h)
        simp [importRead?, renaming?, hresolves, hmodule, ih]

/-- An identifier is to be edited if it names an import and refers to the module. -/
theorem renaming?_isSome_iff
    (program : Program)
    (view : ModuleView)
    (hclosed : view.catalog.Closed)
    (o : Occurrence) :
    (∃ e, renaming? program view o = some e) ↔
      (∃ i ∈ view.catalog.imports, i.name = o.name) ∧ o.refersToModule program.scopeNames := by
  have himport : (∃ i ∈ view.catalog.imports, i.name = o.name) ↔
      ∃ i, view.catalog.importOf? o.name = some i := by
    rw [← Option.isSome_iff_exists, Catalog.importOf?, List.find?_isSome]
    simp
  rw [himport]
  constructor
  · rintro ⟨e, he⟩
    unfold renaming? at he
    split at he
    · rename_i hmodule
      obtain ⟨i, hi, -⟩ := Option.bind_eq_some_iff.mp he
      exact ⟨⟨i, hi⟩, hmodule⟩
    · cases he
  · rintro ⟨⟨i, hi⟩, hmodule⟩
    obtain ⟨handle, hhandle⟩ :=
      Catalog.handle?_of_mem (hclosed.imports i (List.mem_of_find?_eq_some hi))
    exact ⟨_, by simp [renaming?, hmodule, hi, hhandle]; rfl⟩

theorem span_of_renaming?
    {program : Program}
    {view : ModuleView}
    {o : Occurrence}
    {e : Edit}
    (h : renaming? program view o = some e) :
    e.span = o.span := by
  unfold renaming? at h
  split at h
  · obtain ⟨i, -, h⟩ := Option.bind_eq_some_iff.mp h
    obtain ⟨handle, -, h⟩ := Option.bind_eq_some_iff.mp h
    cases h
    rfl
  · cases h

theorem sublist_spans_renamings
    (program : Program)
    (view : ModuleView)
    (occurrences : List Occurrence) :
    ((occurrences.filterMap (renaming? program view)).map (·.span)).Sublist
      (occurrences.map (·.span)) := by
  induction occurrences with
  | nil => exact .slnil
  | cons o occurrences ih =>
      cases h : renaming? program view o with
      | none =>
          rw [List.filterMap_cons_none h]
          exact ih.cons _
      | some e =>
          rw [List.filterMap_cons_some h]
          simp only [List.map_cons, span_of_renaming? h]
          exact ih.cons_cons _

/-- Two identifiers of a module that is read from a text stand at different places. -/
theorem nodup_spans_occurrences
    {text : String}
    {program : Program}
    (h : Program.parse text = .ok program) :
    (program.occurrences.map (·.span)).Nodup := by
  obtain ⟨first, middle, last, hlaid⟩ := Program.laidOut_of_parse h
  exact hlaid.items.spread.nodup

/-- An identifier is replaced if and only if it names an import and the first scope around it that
declares the name is the module; nothing else is replaced. -/
theorem referenceEdits_replaces_iff
    {text : String}
    {program : Program}
    {catalog : Catalog}
    (hparse : Program.parse text = .ok program)
    (hcatalog : Catalog.build text program = .ok catalog)
    (registryName : String)
    (options : TranspileOptions)
    (keys : List (String × String)) :
    ∃ edits,
      referenceEdits (ScopeTable.build program) ⟨registryName, options, catalog, keys⟩
          (ScopeTable.build program).references = .ok edits ∧
        (∀ e ∈ edits, ∃ o ∈ program.occurrences, e.span = o.span) ∧
        ∀ o ∈ program.occurrences,
          (∃ e ∈ edits, e.span = o.span) ↔
            (∃ i ∈ catalog.imports, i.name = o.name) ∧ o.refersToModule program.scopeNames := by
  have hclosed := (Catalog.covers_build hcatalog).closed
  refine ⟨_, referenceEdits_eq hclosed (ScopeTable.build_references program), ?_, ?_⟩
  · intro e he
    obtain ⟨o, ho, hedit⟩ := List.mem_filterMap.mp he
    exact ⟨o, ho, span_of_renaming? hedit⟩
  · intro o ho
    refine Iff.trans ?_
      (renaming?_isSome_iff program ⟨registryName, options, catalog, keys⟩ hclosed o)
    constructor
    · rintro ⟨e, he, hspan⟩
      obtain ⟨o', ho', hedit⟩ := List.mem_filterMap.mp he
      have hsame : o' = o := List.inj_on_of_nodup_map (nodup_spans_occurrences hparse) ho' ho
        ((span_of_renaming? hedit).symm.trans hspan)
      exact ⟨e, hsame ▸ hedit⟩
    · rintro ⟨e, hedit⟩
      exact ⟨e, List.mem_filterMap.mpr ⟨o, ho, hedit⟩, span_of_renaming? hedit⟩

theorem ok_of_toOption_map
    {α β ε : Type}
    {x : Except ε α}
    {f : α → β}
    {b : β}
    (h : x.toOption.map f = some b) :
    ∃ a, x = .ok a ∧ f a = b := by
  cases x with
  | error e => cases h
  | ok a => exact ⟨a, rfl, Option.some.inj h⟩

/-- A module with a function that declares an imported name behind the place where it uses it. -/
def lateDeclaration : String :=
  "import \x7b x \x7d from 'm';\nx();\nfunction f() \x7b x(); var x; \x7d\n"

/-- The first `x` is replaced, the second one is the variable of the function. -/
theorem referenceEdits_lateDeclaration :
    ∃ program catalog edits,
      Program.parse lateDeclaration = .ok program ∧
      Catalog.build lateDeclaration program = .ok catalog ∧
      referenceEdits (ScopeTable.build program) ⟨"n", {}, catalog, []⟩
        (ScopeTable.build program).references = .ok edits ∧
      (∃ e ∈ edits, e.span = ⟨23, 24⟩) ∧ ¬∃ e ∈ edits, e.span = ⟨43, 44⟩ := by
  have hread : ((Program.parse lateDeclaration).toOption.map fun p =>
      (p.occurrences, p.scopeNames, (Catalog.build lateDeclaration p).toOption.map (·.imports))) =
      some ([⟨"x", ⟨23, 24⟩, false, []⟩, ⟨"x", ⟨43, 44⟩, false, [["x"]]⟩], ["f", "x"],
        some [⟨"m", .named "x", "x"⟩]) := by
    decide +kernel
  obtain ⟨program, hparse, hfacts⟩ := ok_of_toOption_map hread
  simp only [Prod.mk.injEq] at hfacts
  obtain ⟨hoccurrences, hnames, hbuild⟩ := hfacts
  obtain ⟨catalog, hcatalog, himports⟩ := ok_of_toOption_map hbuild
  obtain ⟨edits, hedits, -, hiff⟩ :=
    referenceEdits_replaces_iff hparse hcatalog "n" {} []
  rw [hoccurrences, himports, hnames] at hiff
  refine ⟨program, catalog, edits, hparse, hcatalog, hedits, ?_, ?_⟩
  · exact (hiff ⟨"x", ⟨23, 24⟩, false, []⟩ (by simp)).mpr ⟨by simp, by decide⟩
  · intro hreplaced
    have hrefers := (hiff ⟨"x", ⟨43, 44⟩, false, [["x"]]⟩ (by simp)).mp hreplaced
    exact absurd hrefers.2 (by decide)

end Transpile
end EsModules
