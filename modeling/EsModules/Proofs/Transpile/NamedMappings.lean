import EsModules.Proofs.Transpile.Assembly

/-!
# Names in source maps

A source map keeps the names of the identifiers that are rewritten.  `rewritings` lists these
identifiers by lexical scoping, in the order of the text, with the import that each reads and the
handle it is read from.  The mappings with a name are exactly those of this list
(`named_mappings_follow_references`), so their names and origins do not depend on the target.
-/

namespace EsModules
namespace Transpile

open Syntax Text Edit

/-- An identifier that is rewritten. -/
structure Rewriting where
  occurrence : Occurrence
  /-- The import that it reads. -/
  entry : ImportEntry
  /-- The handle of the module that it is imported from. -/
  handle : String

/-- What lexical scoping asks to be made of an identifier. -/
def rewriting? (program : Program) (catalog : Catalog) (o : Occurrence) : Option Rewriting :=
  if o.refersToModule program.scopeNames then do
    let i ← catalog.importOf? o.name
    let handle ← catalog.handle? i.source
    some ⟨o, i, handle⟩
  else none

/-- The identifiers that are rewritten, in the order of the text. -/
def rewritings (program : Program) (catalog : Catalog) : List Rewriting :=
  program.occurrences.filterMap (rewriting? program catalog)

/-- The edit that rewrites an identifier. -/
def Rewriting.edit (format : FormatOptions) (w : Rewriting) : Edit :=
  .rename w.occurrence.span (renamed format w.occurrence w.entry w.handle)

/-- The mapping ties the access expression in the output to the identifier in the source, whose
text is its name. -/
def Rewriting.Mapped (text code : String) (format : FormatOptions) (m : Mapping) (w : Rewriting) :
    Prop :=
  ∃ front source back before rest,
    text.toList = front ++ (source ++ back) ∧
      w.occurrence.span = ⟨byteLength front, byteLength (front ++ source)⟩ ∧
      code.toList = before ++ ((renamed format w.occurrence w.entry w.handle).toList ++ rest) ∧
      m = ⟨.behind before, .behind front, some (String.ofList source)⟩

/-- The mappings that carry a name. -/
def namedMappings (r : Rendered) : List Mapping :=
  r.map.mappings.filter (·.name.isSome)

/-! ### The text of a rewritten identifier -/

theorem handleName_ne_empty (index : Nat) : Catalog.handleName index ≠ "" := by
  simp [Catalog.handleName]

theorem accessExpression_ne_empty
    {handle : String}
    (h : handle ≠ "")
    (kind : ImportKind)
    (format : FormatOptions) :
    accessExpression handle kind format ≠ "" := by
  intro hnone
  cases kind with
  | default =>
      simp only [accessExpression, String.append_eq_empty_iff] at hnone
      exact h hnone.1.1.1.1.1.2
  | named name =>
      by_cases hname : isIdentifierName name = true
      · rw [accessExpression, if_pos hname] at hnone
        simp only [String.append_eq_empty_iff] at hnone
        exact h hnone.1.1
      · rw [accessExpression, if_neg hname] at hnone
        simp only [String.append_eq_empty_iff] at hnone
        exact h hnone.1.1.1
  | whole => exact h hnone

theorem mem_rewritings
    {program : Program}
    {catalog : Catalog}
    {w : Rewriting}
    (h : w ∈ rewritings program catalog) :
    w.occurrence ∈ program.occurrences ∧ catalog.importOf? w.occurrence.name = some w.entry ∧
      catalog.handle? w.entry.source = some w.handle := by
  obtain ⟨o, ho, hw⟩ := List.mem_filterMap.mp h
  unfold rewriting? at hw
  split at hw
  · obtain ⟨i, himport, hw⟩ := Option.bind_eq_some_iff.mp hw
    obtain ⟨handle, hhandle, hw⟩ := Option.bind_eq_some_iff.mp hw
    cases hw
    exact ⟨ho, himport, hhandle⟩
  · cases hw

/-- An identifier is never rewritten to nothing. -/
theorem text_edit_ne_empty
    {program : Program}
    {catalog : Catalog}
    {w : Rewriting}
    (h : w ∈ rewritings program catalog)
    (format : FormatOptions) :
    (w.edit format).text ≠ "" := by
  obtain ⟨index, -, hhandle⟩ := Option.map_eq_some_iff.mp (mem_rewritings h).2.2
  have hfilled : w.handle ≠ "" := by
    rw [← hhandle]
    exact handleName_ne_empty index
  have haccess := accessExpression_ne_empty hfilled w.entry.kind format
  simp only [Rewriting.edit, Edit.rename, renamed]
  split
  · simp only [ne_eq, String.append_eq_empty_iff]
    exact fun hnone => haccess hnone.2
  · exact haccess

theorem renaming?_eq (program : Program) (view : ModuleView) (o : Occurrence) :
    renaming? program view o =
      (rewriting? program view.catalog o).map (Rewriting.edit view.format) := by
  unfold renaming? rewriting?
  split
  · cases himport : view.catalog.importOf? o.name with
    | none => rfl
    | some i => cases hhandle : view.catalog.handle? i.source <;> simp [hhandle, Rewriting.edit]
  · rfl

theorem filterMap_renaming? (program : Program) (view : ModuleView) :
    program.occurrences.filterMap (renaming? program view) =
      (rewritings program view.catalog).map (Rewriting.edit view.format) := by
  rw [rewritings, List.map_filterMap]
  congr 1
  funext o
  exact renaming?_eq program view o

namespace Assembly

variable {target : Target} {text : String} {options : TranspileOptions}

theorem references_eq (a : Assembly target text options) :
    a.references = (rewritings a.program a.catalog).map (Rewriting.edit options.format) :=
  filterMap_renaming? a.program a.view

/-- The edits that keep a name are those of the references. -/
theorem filter_named_edits (a : Assembly target text options) :
    a.edits.filter (·.named) = a.references := by
  have hdeclarations : a.declarations.filter (·.named) = [] := by
    rw [List.filter_eq_nil_iff]
    exact fun e he => by simp [a.fits.unnamed e he]
  have hreferences : a.references.filter (·.named) = a.references := by
    rw [List.filter_eq_self, a.references_eq]
    intro e he
    obtain ⟨w, -, rfl⟩ := List.mem_map.mp he
    rfl
  have hprologue : [prologueEdit a.program text a.prologue].filter (·.named) = [] := by
    simp [named_prologueEdit]
  have hhashbang :
      (hoistHashbang a.program text a.wrapper.header).2.filter (·.named) = [] := by
    obtain ⟨first, middle, last, hlaid⟩ := Program.laidOut_of_parse a.hparse
    rcases hoistHashbang_edits hlaid a.wrapper.header with hnone | ⟨e, hsome, hnamed, -⟩
    · rw [hnone, List.filter_nil]
    · simp [hsome, hnamed]
  simp only [edits, moduleEdits, List.filter_append, hdeclarations, hreferences, hprologue,
    hhashbang, List.nil_append, List.append_nil]

/-- The rewritten identifiers follow one another in the text. -/
theorem spread_rewritings (a : Assembly target text options) :
    ∃ lo hi, Spread text.toList lo hi
      ((rewritings a.program a.catalog).map (·.occurrence.span)) := by
  obtain ⟨first, middle, last, hlaid⟩ := Program.laidOut_of_parse a.hparse
  have hsublist := sublist_spans_renamings a.program a.view a.program.occurrences
  rw [filterMap_renaming?, List.map_map] at hsublist
  exact ⟨_, _, hlaid.items.spread.sublist hsublist⟩

theorem sorted_references (a : Assembly target text options) : Sorted a.references := by
  obtain ⟨lo, hi, hspread⟩ := a.spread_rewritings
  rw [a.references_eq, Sorted, List.pairwise_map]
  refine (List.pairwise_map.mp hspread.ordered).imp_of_mem ?_
  intro v w hv _ hvw
  have := (hspread.inside v.occurrence.span (List.mem_map_of_mem hv)).2.1
  rw [atOrBefore_iff]
  simp only [Rewriting.edit, Edit.rename]
  omega

/-- The named mappings of an output are those of the rewritten identifiers. -/
theorem mapped
    {r : Rendered}
    (a : Assembly target text options)
    (hr : a.Gives r) :
    List.Forall₂ (Rewriting.Mapped text r.code options.format) (namedMappings r)
      (rewritings a.program a.catalog) := by
  obtain ⟨lo, hi, hspread⟩ := a.spread_rewritings
  have hedits : (Edit.sort a.edits).filter (·.named) =
      (rewritings a.program a.catalog).map (Rewriting.edit options.format) := by
    have hsorted : Sorted (a.edits.filter (·.named)) := by
      rw [a.filter_named_edits]
      exact a.sorted_references
    rw [filter_sort hsorted, a.filter_named_edits, a.references_eq]
  have hnamed : ∀ e ∈ Edit.sort a.edits, e.named = true →
      e.span.start < e.span.stop ∧ e.text ≠ "" := by
    intro e he hname
    have hmem := List.mem_filter.mpr ⟨he, hname⟩
    rw [hedits] at hmem
    obtain ⟨w, hw, rfl⟩ := List.mem_map.mp hmem
    exact ⟨(hspread.inside _ (List.mem_map_of_mem hw)).2.1, text_edit_ne_empty hw _⟩
  have hpieces := Cuts.named_ofPieces (.behind a.header.toList) ⟨0, 0⟩ a.applicable.cuts hnamed
  rw [hedits, List.forall₂_map_right_iff] at hpieces
  rw [namedMappings, hr.mappings]
  refine hpieces.imp ?_
  intro m w hm
  obtain ⟨-, front, source, back, rest, htext, hspan, -, -, hcode, rfl⟩ :=
    a.applicable.replaced_at a.header.toList a.footer.toList hm
  exact ⟨front, source, back, _, rest, htext, hspan, hr.code.trans hcode, rfl⟩

end Assembly

/-- Where a rewritten identifier stands and what it is called depends on the text only. -/
theorem Rewriting.Mapped.unique
    {text code code' : String}
    {format format' : FormatOptions}
    {m m' : Mapping}
    {w : Rewriting}
    (h : Mapped text code format m w)
    (h' : Mapped text code' format' m' w) :
    m.origin = m'.origin ∧ m.name = m'.name := by
  obtain ⟨front, source, back, before, rest, htext, hspan, -, rfl⟩ := h
  obtain ⟨front', source', back', before', rest', htext', hspan', -, rfl⟩ := h'
  have hsame := hspan.symm.trans hspan'
  simp only [Span.mk.injEq] at hsame
  obtain ⟨rfl, hrest⟩ := append_inj_of_byteLength (htext.symm.trans htext') hsame.1
  have hlen : byteLength source = byteLength source' := by
    rw [byteLength_append, byteLength_append] at hsame
    omega
  obtain ⟨rfl, -⟩ := append_inj_of_byteLength hrest hlen
  exact ⟨rfl, rfl⟩

theorem map_eq_of_mapped
    {text code code' : String}
    {format format' : FormatOptions}
    {ms ms' : List Mapping}
    {ws : List Rewriting}
    (h : List.Forall₂ (Rewriting.Mapped text code format) ms ws)
    (h' : List.Forall₂ (Rewriting.Mapped text code' format') ms' ws) :
    (ms.map fun m => (m.origin, m.name)) = ms'.map fun m => (m.origin, m.name) := by
  induction h generalizing ms' with
  | nil =>
      cases h'
      rfl
  | cons hm _ ih =>
      cases h' with
      | cons hm' hrest =>
          obtain ⟨horigin, hname⟩ := hm.unique hm'
          rw [List.map_cons, List.map_cons, ih hrest, horigin, hname]

/-- The mappings with a name are those of the identifiers that are rewritten, one for each and in
the order of the text, and their origins and names are the same for every target. -/
theorem named_mappings_follow_references
    {target : Target}
    {text : String}
    {options : TranspileOptions}
    {r : Rendered}
    (h : transpileFor target text options = .ok r) :
    ∃ program catalog,
      Program.parse text = .ok program ∧ Catalog.build text program = .ok catalog ∧
      (∀ name keys,
        referenceEdits (ScopeTable.build program) ⟨name, options, catalog, keys⟩
            (ScopeTable.build program).references =
          .ok ((rewritings program catalog).map (Rewriting.edit options.format))) ∧
      ((rewritings program catalog).Pairwise fun v w =>
        v.occurrence.span.stop ≤ w.occurrence.span.start) ∧
      List.Forall₂ (Rewriting.Mapped text r.code options.format) (namedMappings r)
        (rewritings program catalog) ∧
      ∀ target' options' r', transpileFor target' text options' = .ok r' →
        (namedMappings r).map (fun m => (m.origin, m.name)) =
          (namedMappings r').map fun m => (m.origin, m.name) := by
  obtain ⟨a, hr⟩ := exists_assembly h
  obtain ⟨lo, hi, hspread⟩ := a.spread_rewritings
  refine ⟨a.program, a.catalog, a.hparse, a.hcatalog, ?_, List.pairwise_map.mp hspread.ordered,
    a.mapped hr, ?_⟩
  · intro name keys
    let view : ModuleView := ⟨name, options, a.catalog, keys⟩
    have hclosed : view.catalog.Closed := (Catalog.covers_build a.hcatalog).closed
    rw [referenceEdits_eq hclosed (ScopeTable.build_references a.program), filterMap_renaming?]
    rfl
  · intro target' options' r' h'
    obtain ⟨a', hr'⟩ := exists_assembly h'
    have hprogram : a'.program = a.program := Except.ok.inj (a'.hparse.symm.trans a.hparse)
    have hcatalog : a'.catalog = a.catalog := by
      have hbuild := a'.hcatalog
      rw [hprogram] at hbuild
      exact Except.ok.inj (hbuild.symm.trans a.hcatalog)
    have hmapped' := a'.mapped hr'
    rw [hprogram, hcatalog] at hmapped'
    exact map_eq_of_mapped (a.mapped hr) hmapped'

/-- A module that uses an import as a shorthand property, behind a character of two UTF-16 units,
and under a name with an escape. -/
def shorthandUse : String :=
  "import \x7b x \x7d from 'm';\nlet s = '😀', o = \x7b x \x7d;\n\\u0078();\n"

theorem named_mappings_follow_references_shorthandUse :
    ∃ r, transpileFor Target.amd shorthandUse ⟨some "n", none, none, {}⟩ = .ok r ∧
      (namedMappings r).map (fun m => (m.origin, m.name)) =
        [(⟨1, 20⟩, some "x"), (⟨2, 0⟩, some "\\u0078")] ∧
      ∃ program catalog, Program.parse shorthandUse = .ok program ∧
        Catalog.build shorthandUse program = .ok catalog ∧
        List.Forall₂ (Rewriting.Mapped shorthandUse r.code {}) (namedMappings r)
          (rewritings program catalog) := by
  have hrun : (transpileFor Target.amd shorthandUse ⟨some "n", none, none, {}⟩).toOption.map
      (fun r => (namedMappings r).map fun m => (m.origin, m.name)) =
        some [(⟨1, 20⟩, some "x"), (⟨2, 0⟩, some "\\u0078")] := by
    simp only [transpileFor_eq]
    decide +kernel
  obtain ⟨r, hr, hnames⟩ := ok_of_toOption_map hrun
  obtain ⟨program, catalog, hparse, hcatalog, -, -, hmapped, -⟩ :=
    named_mappings_follow_references hr
  exact ⟨r, hr, hnames, program, catalog, hparse, hcatalog, hmapped⟩

end Transpile
end EsModules
