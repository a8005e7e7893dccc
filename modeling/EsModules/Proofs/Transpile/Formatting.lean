import EsModules.Proofs.Transpile.ClearLines
import EsModules.Proofs.Transpile.SingleLoads
import Mathlib.Data.List.TakeWhile

/-!
# Formatting and the text of the module

The quotation marks and the indentation of generated code are options.  They reach every text that
the transpiler writes: the statements that load modules, the accesses to handles, the getters, the
loops of `export *` and the wrapper.

Two transpilations of one module that differ in these options only are compared here step by step.
What one step records is `Alike` for both: the same places are edited, and a text that is written is
empty in both or in none.  Empty texts matter because a removal has no mapping and an empty
insertion does not cut the text.  From the edits the relation is carried to the pieces of the text
and to the mappings (`formatting_keeps_module`).
-/

namespace EsModules

open Syntax Text

/-! ### Edits, pieces and mappings -/

namespace Edit

/-- Two edits of one place that both remove it or both write something. -/
structure Alike (e e' : Edit) : Prop where
  span : e.span = e'.span
  named : e.named = e'.named
  empty : e.text = "" ↔ e'.text = ""

theorem Alike.refl (e : Edit) : e.Alike e :=
  ⟨rfl, rfl, Iff.rfl⟩

theorem forall₂_insertSorted
    {e e' : Edit}
    (he : e.Alike e')
    {edits edits' : List Edit}
    (h : List.Forall₂ Alike edits edits') :
    List.Forall₂ Alike (insertSorted e edits) (insertSorted e' edits') := by
  induction h with
  | nil => exact .cons he .nil
  | @cons other other' rest rest' hother hrest ih =>
      have hsame : e.atOrBefore other = e'.atOrBefore other' := by
        simp only [atOrBefore, he.span, hother.span]
      unfold insertSorted
      rw [hsame]
      split
      · exact .cons he (.cons hother hrest)
      · exact .cons hother ih

/-- The order of edits depends on their places only. -/
theorem forall₂_sort
    {edits edits' : List Edit}
    (h : List.Forall₂ Alike edits edits') :
    List.Forall₂ Alike (sort edits) (sort edits') := by
  induction h with
  | nil => exact .nil
  | cons he _ ih => exact forall₂_insertSorted he ih

end Edit

namespace Piece

/-- The same piece of the source, kept in both or given a text in both. -/
inductive Alike : Piece → Piece → Prop where
  | kept (text : List Char) : Alike (.kept text) (.kept text)
  | replaced
      (source : List Char)
      {text text' : List Char}
      (named : Bool)
      (h : text = [] ↔ text' = []) :
      Alike (.replaced source text named) (.replaced source text' named)
  | inserted
      {text text' : List Char}
      (h : text ≠ [])
      (h' : text' ≠ []) :
      Alike (.inserted text) (.inserted text')

theorem Alike.source {p p' : Piece} (h : p.Alike p') : p.source = p'.source := by
  cases h <;> rfl

/-- Edits that are alike cut a text alike. -/
theorem forall₂_cut
    {edits edits' : List Edit}
    (h : List.Forall₂ Edit.Alike edits edits')
    (offset : Nat)
    (rest : List Char) :
    List.Forall₂ Alike (cut offset rest edits) (cut offset rest edits') := by
  induction h generalizing offset rest with
  | nil => exact .cons (.kept rest) .nil
  | @cons e e' edits edits' he _ ih =>
      have hinsertion : e.isInsertion = e'.isInsertion := by
        rw [Edit.isInsertion, Edit.isInsertion, he.span]
      have hempty : (e.text == "") = (e'.text == "") := by
        rw [Bool.eq_iff_iff, beq_iff_eq, beq_iff_eq]
        exact he.empty
      have hchars : e.text.toList = [] ↔ e'.text.toList = [] := by
        rw [String.toList_eq_nil_iff, String.toList_eq_nil_iff]
        exact he.empty
      unfold cut
      rw [hinsertion, hempty, he.span, he.named]
      split
      · exact ih _ _
      · rename_i hwritten
        simp only
        split
        · rename_i hinserts
          have hfilled : e'.text ≠ "" := by simpa [hinserts] using hwritten
          have hnonempty : e'.text.toList ≠ [] := by
            rwa [ne_eq, String.toList_eq_nil_iff]
          exact .cons (.kept _) (.cons (.inserted (fun h => hnonempty (hchars.mp h)) hnonempty)
            (ih _ _))
        · exact .cons (.kept _) (.cons (.replaced _ _ hchars) (ih _ _))

end Piece

namespace Mapping

/-- What a mapping says about the source. -/
def sourcePart (m : Mapping) : Place × Option String :=
  (m.origin, m.name)

theorem sourceParts_ofKept
    (fresh : Bool)
    (generated generated' origin : Place)
    (text : List Char) :
    (ofKept fresh generated origin text).map sourcePart =
      (ofKept fresh generated' origin text).map sourcePart := by
  induction text generalizing fresh generated generated' origin with
  | nil => rfl
  | cons c rest ih =>
      unfold ofKept
      split
      · exact ih _ _ _ _
      · split
        · simp only [List.map_cons, sourcePart]
          rw [ih _ _ (generated'.step c)]
        · exact ih _ _ _ _

theorem sourceParts_ofPiece
    {p p' : Piece}
    (h : p.Alike p')
    (generated generated' origin : Place) :
    (ofPiece generated origin p).map sourcePart =
      (ofPiece generated' origin p').map sourcePart := by
  cases h with
  | kept text => exact sourceParts_ofKept true generated generated' origin text
  | @replaced source text text' named h =>
      by_cases hnone : text = []
      · simp [ofPiece, hnone, h.mp hnone]
      · have hnone' : text' ≠ [] := fun h' => hnone (h.mpr h')
        simp [ofPiece, hnone, hnone', sourcePart]
  | inserted h h' => rfl

/-- Pieces that are alike have mappings from the same places of the source and with the same
names, wherever in the output they stand. -/
theorem sourceParts_ofPieces
    {pieces pieces' : List Piece}
    (h : List.Forall₂ Piece.Alike pieces pieces')
    (generated generated' origin : Place) :
    (ofPieces generated origin pieces).map sourcePart =
      (ofPieces generated' origin pieces').map sourcePart := by
  induction h generalizing generated generated' origin with
  | nil => rfl
  | @cons p p' pieces pieces' hp _ ih =>
      simp only [ofPieces, List.map_append]
      rw [sourceParts_ofPiece hp generated generated', hp.source,
        ih _ (generated'.advance p'.output)]

end Mapping

/-- The same options with another style of generated code. -/
def TranspileOptions.styled
    (options : TranspileOptions)
    (quoteStyle : QuoteStyle)
    (indent : IndentStyle) :
    TranspileOptions :=
  { options with format := { options.format with quoteStyle := quoteStyle, indent := indent } }

namespace Transpile

/-! ### Two runs -/

/-- Both computations fail in the same way, or both succeed with related results. -/
inductive Paired {ε α β : Type} (R : α → β → Prop) : Except ε α → Except ε β → Prop where
  | error (e : ε) : Paired R (.error e) (.error e)
  | ok {a : α} {b : β} (h : R a b) : Paired R (.ok a) (.ok b)

theorem Paired.bind
    {ε α α' β β' : Type}
    {S : α → α' → Prop}
    {R : β → β' → Prop}
    {x : Except ε α}
    {x' : Except ε α'}
    {f : α → Except ε β}
    {f' : α' → Except ε β'}
    (h : Paired S x x')
    (hf : ∀ a a', S a a' → Paired R (f a) (f' a')) :
    Paired R (x >>= f) (x' >>= f') := by
  cases h with
  | error e => exact .error e
  | ok ha => exact hf _ _ ha

/-- Two views of one module that may differ in their options. -/
structure SameFacts (view view' : ModuleView) : Prop where
  catalog : view.catalog = view'.catalog
  keys : view.keys = view'.keys

/-- Whether the targets write something does not depend on the style, and is the same for both. -/
structure Matching (target target' : Target) : Prop where
  importStatement :
    ∀ view view' request,
      target.importStatement view request = "" ↔ target'.importStatement view' request = ""
  starExport :
    ∀ view view' handle,
      trimEnd (target.starExport view handle) = "" ↔
        trimEnd (target'.starExport view' handle) = ""
  header :
    ∀ view view' wrapper wrapper',
      target.wrap view = .ok wrapper → target'.wrap view' = .ok wrapper' →
        (wrapper.header = "" ↔ wrapper'.header = "")

section Declarations

variable
  {target target' : Target}
  (htarget : Matching target target')
  {view view' : ModuleView}
  (hview : SameFacts view view')

include htarget hview

theorem paired_load (loaded : List String) (source : String) :
    Paired (fun p p' => p.1 = p'.1 ∧ (p.2 = "" ↔ p'.2 = ""))
      (load target view loaded source) (load target' view' loaded source) := by
  have hhandle : view.requireHandle source = view'.requireHandle source := by
    rw [ModuleView.requireHandle, ModuleView.requireHandle, hview.catalog]
  unfold load
  rw [hhandle, hview.keys]
  cases view'.requireHandle source with
  | error e => exact .error e
  | ok handle =>
      simp only [bind, Except.bind]
      split
      · exact .ok ⟨rfl, Iff.rfl⟩
      · cases view'.keys.find? (·.1 == source) with
        | none => exact .error _
        | some entry => exact .ok ⟨rfl, htarget.importStatement _ _ _⟩

omit htarget hview in
theorem alike_replaceOrRemove
    (span : Span)
    {statement statement' : String}
    (h : statement = "" ↔ statement' = "") :
    (replaceOrRemove span statement).Alike (replaceOrRemove span statement') := by
  by_cases hnone : statement = ""
  · simp only [replaceOrRemove, hnone, h.mp hnone]
    exact .refl _
  · have hnone' : statement' ≠ "" := fun h' => hnone (h.mpr h')
    simp only [replaceOrRemove, beq_iff_eq, hnone, hnone', if_false]
    exact ⟨rfl, rfl, h⟩

omit htarget hview in
theorem starStatement_eq_empty_iff (loading publishing : String) :
    starStatement loading publishing = "" ↔ loading = "" ∧ trimEnd publishing = "" := by
  by_cases hloading : loading = "" <;>
    simp [starStatement, hloading, String.append_eq_empty_iff]

/-- A statement that loads a module is edited alike. -/
theorem paired_loading (loaded : List String) (span : Span) (source : String) :
    Paired (fun p p' => List.Forall₂ Edit.Alike p.1 p'.1 ∧ p.2 = p'.2)
      (do
        let (_, statement) ← load target view loaded source
        return ([replaceOrRemove span statement], [source]))
      (do
        let (_, statement) ← load target' view' loaded source
        return ([replaceOrRemove span statement], [source])) := by
  refine (paired_load htarget hview loaded source).bind ?_
  intro p p' hp
  exact .ok ⟨.cons (alike_replaceOrRemove span hp.2) .nil, rfl⟩

theorem paired_itemEdits (loaded : List String) (item : Item) :
    Paired (fun p p' => List.Forall₂ Edit.Alike p.1 p'.1 ∧ p.2 = p'.2)
      (itemEdits target view loaded item) (itemEdits target' view' loaded item) := by
  have hsame : ∀ edits, List.Forall₂ Edit.Alike edits edits :=
    fun edits => List.forall₂_same.mpr fun e _ => .refl e
  cases item with
  | imports span source _ => exact paired_loading htarget hview loaded span source
  | exportDeclaration => exact .ok ⟨hsame _, rfl⟩
  | exportList => exact .ok ⟨hsame _, rfl⟩
  | exportFrom span source _ => exact paired_loading htarget hview loaded span source
  | exportDefault => exact .ok ⟨hsame _, rfl⟩
  | exportAll span source name =>
      cases name with
      | some name => exact paired_loading htarget hview loaded span source
      | none =>
          refine (paired_load htarget hview loaded source).bind ?_
          rintro ⟨handle, statement⟩ ⟨_, statement'⟩ ⟨rfl, hstatement⟩
          refine .ok ⟨.cons (alike_replaceOrRemove span ?_) .nil, rfl⟩
          rw [starStatement_eq_empty_iff, starStatement_eq_empty_iff, hstatement,
            htarget.starExport view view' handle]
  | statement => exact .ok ⟨.nil, rfl⟩

/-- The statements are edited alike. -/
theorem paired_declarationEdits (loaded : List String) (items : List Item) :
    Paired (List.Forall₂ Edit.Alike)
      (declarationEdits target view loaded items)
      (declarationEdits target' view' loaded items) := by
  induction items generalizing loaded with
  | nil => exact .ok .nil
  | cons item items ih =>
      refine (paired_itemEdits htarget hview loaded item).bind ?_
      rintro ⟨edits, sources⟩ ⟨edits', _⟩ ⟨hedits, rfl⟩
      refine (ih (loaded ++ sources)).bind ?_
      intro more more' hmore
      exact .ok (List.rel_append hedits hmore)

end Declarations

/-- The references are edited alike. -/
theorem forall₂_rewritings
    (program : Program)
    (catalog : Catalog)
    (format format' : FormatOptions) :
    List.Forall₂ Edit.Alike ((rewritings program catalog).map (Rewriting.edit format))
      ((rewritings program catalog).map (Rewriting.edit format')) := by
  rw [List.forall₂_map_left_iff, List.forall₂_map_right_iff, List.forall₂_same]
  intro w hw
  exact ⟨rfl, rfl, iff_of_false (text_edit_ne_empty hw format) (text_edit_ne_empty hw format')⟩

theorem alike_insert
    (offset : Nat)
    {text text' : String}
    (h : text ≠ "")
    (h' : text' ≠ "") :
    (Edit.insert offset text).Alike (Edit.insert offset text') :=
  ⟨rfl, rfl, iff_of_false h h'⟩

/-- A prologue is inserted alike. -/
theorem alike_prologueEdit
    (program : Program)
    (text : String)
    {prologue prologue' : String}
    (h : prologue ≠ "")
    (h' : prologue' ≠ "") :
    (prologueEdit program text prologue).Alike (prologueEdit program text prologue') := by
  simp only [prologueEdit, beq_iff_eq, h, h', if_false]
  split
  · exact alike_insert _ (by simp) (by simp)
  · split
    · exact alike_insert _ h h'
    · exact alike_insert _ (by simp [h]) (by simp [h'])

/-- The hashbang is hoisted before both headers or before none. -/
theorem hoistHashbang_alike
    (program : Program)
    (text : String)
    {header header' : String}
    (h : header = "" ↔ header' = "") :
    (hoistHashbang program text header).2 = (hoistHashbang program text header').2 ∧
      ∃ moved, (hoistHashbang program text header).1 = moved ++ header ∧
        (hoistHashbang program text header').1 = moved ++ header' := by
  unfold hoistHashbang
  cases program.hashbang with
  | none => exact ⟨rfl, "", by simp⟩
  | some span =>
      by_cases hnone : header = ""
      · simp [hnone, h.mp hnone]
      · have hnone' : header' ≠ "" := fun h' => hnone (h.mpr h')
        simp only [beq_iff_eq, hnone, hnone', if_false]
        exact ⟨trivial, _, rfl, rfl⟩

/-! ### Targets -/

/-- A target in two styles.  The links of a `system` module hold expressions that are written in
the style of the output, so they may differ. -/
inductive Twins : Target → Target → Prop where
  | same {target : Target} (h : Shipped target) : Twins target target
  | system (links links' : Target.SystemLinks) :
      Twins (Target.system links) (Target.system links')

theorem Twins.shipped {target target' : Target} (h : Twins target target') :
    Shipped target ∧ Shipped target' := by
  cases h with
  | same h => exact ⟨h, h⟩
  | system links links' => exact ⟨.system links, .system links'⟩

theorem total_of_shipped {target : Target} (h : Shipped target) : Total target := by
  cases h with
  | named hname => exact total_targetNamed hname
  | commonJs paths => exact total_commonJs paths
  | system links => exact total_system links

theorem trimEnd_moduleStarExport_ne_empty (view : ModuleView) (handle : String) :
    trimEnd (moduleStarExport view handle) ≠ "" := by
  intro hnone
  rw [trimEnd, String.ofList_eq_empty_iff, dropEndWhile, List.reverse_eq_nil_iff,
    List.dropWhile_eq_nil_iff] at hnone
  have hfirst := List.mem_of_mem_head? (head?_moduleStarExport view handle)
  exact absurd (hnone 'O' (List.mem_reverse.mpr hfirst)) (by decide)

/-- Targets that load modules by statements, or both by none, match if their headers do. -/
theorem Matching.of_moduleStarExport
    {target : Target}
    (himport : (∀ view request, target.importStatement view request = "") ∨
      ∀ view request, target.importStatement view request ≠ "")
    (hstar : target.starExport = moduleStarExport)
    (hheader : (∀ view wrapper, target.wrap view = .ok wrapper → wrapper.header = "") ∨
      ∀ view wrapper, target.wrap view = .ok wrapper → wrapper.header ≠ "") :
    Matching target target where
  importStatement view view' request := by
    rcases himport with h | h
    · simp [h]
    · simp [h]
  starExport view view' handle := by
    rw [hstar]
    exact iff_of_false (trimEnd_moduleStarExport_ne_empty view handle)
      (trimEnd_moduleStarExport_ne_empty view' handle)
  header view view' wrapper wrapper' hwrap hwrap' := by
    rcases hheader with h | h
    · exact iff_of_true (h _ _ hwrap) (h _ _ hwrap')
    · exact iff_of_false (h _ _ hwrap) (h _ _ hwrap')

theorem header_systemWrapper_ne_empty
    {links : Target.SystemLinks}
    {view : ModuleView}
    {wrapper : Wrapper}
    (h : Target.systemWrapper links view = .ok wrapper) :
    wrapper.header ≠ "" := by
  obtain ⟨accessors, -, h⟩ := bind_eq_ok.mp h
  cases h
  simp [toString, String.append_eq_empty_iff]

theorem matching_system (links links' : Target.SystemLinks) :
    Matching (Target.system links) (Target.system links') where
  importStatement _ _ _ := Iff.rfl
  starExport _ _ _ := Iff.rfl
  header _ _ _ _ hwrap hwrap' :=
    iff_of_false (header_systemWrapper_ne_empty hwrap) (header_systemWrapper_ne_empty hwrap')

theorem matching_cjs : Matching Target.cjs Target.cjs := by
  refine .of_moduleStarExport (.inr ?_) rfl (.inl ?_)
  · intro view request
    simp [Target.cjs, Target.cjsImport, toString, String.append_eq_empty_iff]
  · rintro view wrapper ⟨⟩
    rfl

theorem matching_amdCjs : Matching Target.amdCjs Target.amdCjs := by
  refine .of_moduleStarExport (.inr ?_) rfl (.inr ?_)
  · intro view request
    simp [Target.amdCjs, Target.cjsImport, toString, String.append_eq_empty_iff]
  · rintro view wrapper ⟨⟩
    simp [toString, String.append_eq_empty_iff]

theorem matching_amd : Matching Target.amd Target.amd := by
  refine .of_moduleStarExport (.inl fun _ _ => rfl) rfl (.inr ?_)
  rintro view wrapper ⟨⟩
  simp [Target.amdWrapper, toString, String.append_eq_empty_iff]

theorem matching_yui : Matching Target.yui Target.yui := by
  refine .of_moduleStarExport (.inr ?_) rfl (.inr ?_)
  · intro view request
    simp [Target.yui, toString, String.append_eq_empty_iff]
  · rintro view wrapper ⟨⟩
    simp [Target.yuiWrapper, toString, String.append_eq_empty_iff]

theorem matching_commonJs (paths : List (String × String)) :
    Matching (Target.commonJs paths) (Target.commonJs paths) := by
  refine .of_moduleStarExport (.inr ?_) rfl (.inr ?_)
  · intro view request
    simp [Target.commonJs, toString, String.append_eq_empty_iff]
  · rintro view wrapper ⟨⟩
    simp [String.append_eq_empty_iff]

theorem Twins.matching {target target' : Target} (h : Twins target target') :
    Matching target target' := by
  cases h with
  | system links links' => exact matching_system links links'
  | same h =>
      cases h with
      | commonJs paths => exact matching_commonJs paths
      | system links => exact matching_system links links
      | named hname =>
          unfold targetNamed at hname
          split at hname
          · cases hname
            exact matching_cjs
          · cases hname
            exact matching_amd
          · cases hname
            exact matching_amdCjs
          · cases hname
            exact matching_amdCjs
          · cases hname
            exact matching_yui
          · cases hname

/-! ### Outputs -/

theorem obstacle_styled
    {text : String}
    {options : TranspileOptions}
    {quoteStyle : QuoteStyle}
    {indent : IndentStyle}
    {e : TranspileError}
    (h : Obstacle text (options.styled quoteStyle indent) e)
    (quoteStyle' : QuoteStyle)
    (indent' : IndentStyle) :
    Obstacle text (options.styled quoteStyle' indent') e := by
  cases h with
  | unnamed h => exact .unnamed h
  | blank h hblank => exact .blank h hblank
  | @parse name _ hname h =>
      show Obstacle text _ (.parse (sourceFile (options.styled quoteStyle' indent') name))
      exact .parse hname h
  | catalog hname hparse h => exact .catalog hname hparse h
  | directory hname hprogram hdir h => exact .directory hname hprogram hdir h

/-- The pieces that the edits of a module cut it into. -/
def Assembly.pieces
    {target : Target}
    {text : String}
    {options : TranspileOptions}
    (a : Assembly target text options) :
    List Piece :=
  Piece.cut 0 text.toList (Edit.sort a.edits)

/-- Two outputs of one module that differ in generated code only. -/
structure Restyled
    {target target' : Target}
    {text : String}
    {options options' : TranspileOptions}
    (a : Assembly target text options)
    (a' : Assembly target' text options')
    (r r' : Rendered) :
    Prop where
  code : r.code.toList = a.header.toList ++ a.pieces.flatMap Piece.output ++ a.footer.toList
  code' : r'.code.toList = a'.header.toList ++ a'.pieces.flatMap Piece.output ++ a'.footer.toList
  /-- The same text is kept in the same order, between texts that are generated. -/
  pieces : List.Forall₂ Piece.Alike a.pieces a'.pieces
  /-- If the hashbang is moved before the header, it is moved in both. -/
  hashbang :
    ∃ moved, a.header = moved ++ a.wrapper.header ∧ a'.header = moved ++ a'.wrapper.header
  mappings : r.map.mappings.map Mapping.sourcePart = r'.map.mappings.map Mapping.sourcePart

section Assemblies

variable
  {target target' : Target}
  (htarget : Twins target target')
  {text : String}
  {options : TranspileOptions}
  {quoteStyle quoteStyle' : QuoteStyle}
  {indent indent' : IndentStyle}
  (a : Assembly target text (options.styled quoteStyle indent))
  (a' : Assembly target' text (options.styled quoteStyle' indent'))

/-- What is read of a module does not depend on the style. -/
theorem Assembly.agree_styled : a.program = a'.program ∧ SameFacts a.view a'.view := by
  have hprogram : a.program = a'.program := Except.ok.inj (a.hparse.symm.trans a'.hparse)
  have hcatalog : a.catalog = a'.catalog :=
    Except.ok.inj ((hprogram ▸ a.hcatalog).symm.trans a'.hcatalog)
  have hkeys : a.keys = a'.keys := Except.ok.inj ((hcatalog ▸ a.hkeys).symm.trans a'.hkeys)
  exact ⟨hprogram, hcatalog, hkeys⟩

include htarget

theorem Assembly.header_eq_empty_iff : a.wrapper.header = "" ↔ a'.wrapper.header = "" :=
  htarget.matching.header _ _ _ _ a.hwrapper a'.hwrapper

/-- The edits are alike. -/
theorem Assembly.forall₂_edits : List.Forall₂ Edit.Alike a.edits a'.edits := by
  obtain ⟨hprogram, hfacts⟩ := a.agree_styled a'
  have hdeclarations : List.Forall₂ Edit.Alike a.declarations a'.declarations := by
    have hpaired := paired_declarationEdits htarget.matching hfacts [] a.program.items
    rw [show declarationEdits target a.view [] a.program.items = .ok a.declarations from
        a.hdeclarations,
      show declarationEdits target' a'.view [] a.program.items = .ok a'.declarations from
        hprogram ▸ a'.hdeclarations] at hpaired
    cases hpaired with
    | ok h => exact h
  have hreferences : List.Forall₂ Edit.Alike a.references a'.references := by
    rw [a.references_eq, a'.references_eq, ← hprogram,
      show a'.catalog = a.catalog from hfacts.catalog.symm]
    exact forall₂_rewritings _ _ _ _
  have hprologue : (prologueEdit a.program text a.prologue).Alike
      (prologueEdit a'.program text a'.prologue) := by
    rw [← hprogram]
    exact alike_prologueEdit _ _
      (ne_empty_of_endsLine (htarget.shipped.1.wholeLines.prologue _ _ a.hprologue))
      (ne_empty_of_endsLine (htarget.shipped.2.wholeLines.prologue _ _ a'.hprologue))
  have hhoisted : (hoistHashbang a.program text a.wrapper.header).2 =
      (hoistHashbang a'.program text a'.wrapper.header).2 := by
    rw [← hprogram]
    exact (hoistHashbang_alike _ _ (a.header_eq_empty_iff htarget a')).1
  rw [edits, edits, moduleEdits, moduleEdits, hhoisted]
  refine List.rel_append (List.rel_append (List.rel_append hdeclarations hreferences)
    (.cons hprologue .nil)) ?_
  exact List.forall₂_same.mpr fun e _ => .refl e

theorem Restyled.of_gives
    {r r' : Rendered}
    (hr : a.Gives r)
    (hr' : a'.Gives r') :
    Restyled a a' r r' := by
  have hpieces : List.Forall₂ Piece.Alike a.pieces a'.pieces :=
    Piece.forall₂_cut (Edit.forall₂_sort (a.forall₂_edits htarget a')) 0 text.toList
  refine
    { code := by rw [hr.code, Assembly.pieces, a.applicable.output_cut]
      code' := by rw [hr'.code, Assembly.pieces, a'.applicable.output_cut]
      pieces := hpieces
      hashbang := ?_
      mappings := ?_ }
  · rw [Assembly.header, Assembly.header, ← (a.agree_styled a').1]
    exact (hoistHashbang_alike _ _ (a.header_eq_empty_iff htarget a')).2
  · rw [hr.mappings, hr'.mappings]
    exact Mapping.sourceParts_ofPieces hpieces _ _ _

end Assemblies

/-- Two transpilations of a module that differ in the style of generated code fail in the same way,
or keep the same text of the module and map the same places and names of it. -/
theorem formatting_keeps_module
    {target target' : Target}
    (htarget : Twins target target')
    (text : String)
    (options : TranspileOptions)
    (quoteStyle quoteStyle' : QuoteStyle)
    (indent indent' : IndentStyle) :
    Paired
      (fun r r' => ∃ (a : Assembly target text (options.styled quoteStyle indent))
        (a' : Assembly target' text (options.styled quoteStyle' indent')), Restyled a a' r r')
      (transpileFor target text (options.styled quoteStyle indent))
      (transpileFor target' text (options.styled quoteStyle' indent')) := by
  obtain ⟨hshipped, hshipped'⟩ := htarget.shipped
  rcases transpilable_or_obstacle text (options.styled quoteStyle indent) with h | ⟨e, h⟩
  · have h' : Transpilable text (options.styled quoteStyle' indent') := ⟨h.named, h.located⟩
    obtain ⟨r, hr⟩ := transpileFor_eq_ok (total_of_shipped hshipped) h
    obtain ⟨r', hr'⟩ := transpileFor_eq_ok (total_of_shipped hshipped') h'
    obtain ⟨a, hgives⟩ := exists_assembly hr
    obtain ⟨a', hgives'⟩ := exists_assembly hr'
    rw [hr, hr']
    exact .ok ⟨a, a', .of_gives htarget a a' hgives hgives'⟩
  · rw [transpileFor_eq_error target h,
      transpileFor_eq_error target' (obstacle_styled h quoteStyle' indent')]
    exact .error e

/-- A module with one import. -/
def bareImport : String :=
  "import 'm';\n"

/-- The output begins with a call whose first argument is a string literal, in the quotation marks
that are asked for; the mappings are of the same places. -/
theorem formatting_keeps_module_bareImport :
    Twins Target.yui Target.yui ∧
      ∃ r r',
        transpileFor Target.yui bareImport (registered.styled .double (.spaces 2)) = .ok r ∧
        transpileFor Target.yui bareImport (registered.styled .single .tabs) = .ok r' ∧
        r.code.toList[8]? = some '"' ∧
        r'.code.toList[8]? = some '\'' ∧
        r.map.mappings.map Mapping.sourcePart = r'.map.mappings.map Mapping.sourcePart := by
  have htwins : Twins Target.yui Target.yui := .same (.named (show targetNamed "yui" = _ from rfl))
  have hdouble : ((transpileFor Target.yui bareImport
      (registered.styled .double (.spaces 2))).toOption.map (·.code.toList[8]?)) =
      some (some '"') := by
    simp only [transpileFor_eq]
    decide +kernel
  have hsingle : ((transpileFor Target.yui bareImport
      (registered.styled .single .tabs)).toOption.map (·.code.toList[8]?)) =
      some (some '\'') := by
    simp only [transpileFor_eq]
    decide +kernel
  obtain ⟨r, hr, hquote⟩ := ok_of_toOption_map hdouble
  obtain ⟨r', hr', hquote'⟩ := ok_of_toOption_map hsingle
  have hpaired := formatting_keeps_module htwins bareImport registered .double .single (.spaces 2)
    .tabs
  rw [hr, hr'] at hpaired
  cases hpaired with
  | ok h =>
      obtain ⟨a, a', h⟩ := h
      exact ⟨htwins, r, r', hr, hr', hquote, hquote', h.mappings⟩

end Transpile
end EsModules
