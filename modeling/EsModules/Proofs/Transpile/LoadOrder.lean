import EsModules.Proofs.Transpile.Handles

/-!
# Where modules are loaded

Most targets load a module into its handle by a statement `var handle = …;`.  It takes the place of
the first statement that names the module, wherever that stands, and an access to an import takes
the place of the identifier.  Nothing is moved, so the handle of an access is loaded before it if
and only if the identifier stands behind the first statement that names the module
(`load_precedes_access_iff`).  An import at the end of a module is loaded behind all code that
uses it.
-/

namespace EsModules
namespace Transpile

open Syntax Text Edit

/-- The targets that load modules by statements. -/
inductive ByStatements : Target → Prop where
  | cjs : ByStatements Target.cjs
  | amdCjs : ByStatements Target.amdCjs
  | yui : ByStatements Target.yui
  | commonJs (paths : List (String × String)) : ByStatements (Target.commonJs paths)

/-- The statement declares the handle. -/
theorem ByStatements.importStatement_eq
    {target : Target}
    (h : ByStatements target)
    (view : ModuleView)
    (request : ImportRequest) :
    ∃ value, target.importStatement view request =
      "var " ++ request.handle ++ " = " ++ value ++ ";" := by
  have hcall : ");" = ")" ++ ";" := by decide
  have hindex : "];" = "]" ++ ";" := by decide
  have hcjs : Target.cjsImport view request = "var " ++ request.handle ++ " = " ++
      (registryVariable ++ "[" ++ view.quote request.key ++ "] || require(" ++
        view.quote request.source ++ ")") ++ ";" := by
    simp only [Target.cjsImport, toString, hcall, String.append_assoc]
  cases h with
  | cjs => exact ⟨_, hcjs⟩
  | amdCjs => exact ⟨_, hcjs⟩
  | yui =>
      refine ⟨"__imports__[" ++ view.quote request.key ++ "]", ?_⟩
      have hfront : " = __imports__[" = " = " ++ "__imports__[" := by decide
      simp only [Target.yui, toString, hfront, hindex, String.append_assoc]
  | commonJs paths =>
      refine ⟨"require(" ++ view.quote (Target.requirePath paths request.source) ++ ")", ?_⟩
      have hfront : " = require(" = " = " ++ "require(" := by decide
      simp only [Target.commonJs, toString, hfront, hcall, String.append_assoc]

/-! ### Statements that name a module -/

/-- A statement that names a module is replaced as a whole. -/
theorem itemEdits_of_source
    {target : Target}
    {view : ModuleView}
    {loaded : List String}
    {item : Item}
    {source : String}
    {own : List Edit}
    {named : List String}
    (h : itemEdits target view loaded item = .ok (own, named))
    (hsource : item.source? = some source) :
    ∃ handle loading statement, load target view loaded source = .ok (handle, loading) ∧
      own = [replaceOrRemove item.span statement] ∧
      (statement = loading ∨
        statement = starStatement loading (target.starExport view handle)) := by
  have hplain : ∀ span source',
      (load target view loaded source' >>= fun loading =>
        pure ([replaceOrRemove span loading.2], [source'])) = .ok (own, named) →
      ∃ handle loading, load target view loaded source' = .ok (handle, loading) ∧
        own = [replaceOrRemove span loading] := by
    intro span source' h
    obtain ⟨⟨handle, loading⟩, hload, h⟩ := bind_eq_ok.mp h
    cases h
    exact ⟨handle, loading, hload, rfl⟩
  cases item with
  | imports span source' bindings =>
      cases hsource
      obtain ⟨handle, loading, hload, hown⟩ := hplain span source h
      exact ⟨handle, loading, loading, hload, hown, .inl rfl⟩
  | exportFrom span source' specifiers =>
      cases hsource
      obtain ⟨handle, loading, hload, hown⟩ := hplain span source h
      exact ⟨handle, loading, loading, hload, hown, .inl rfl⟩
  | exportAll span source' exported =>
      cases hsource
      cases exported with
      | some name =>
          obtain ⟨handle, loading, hload, hown⟩ := hplain span source h
          exact ⟨handle, loading, loading, hload, hown, .inl rfl⟩
      | none =>
          obtain ⟨⟨handle, loading⟩, hload, h⟩ := bind_eq_ok.mp h
          cases h
          exact ⟨handle, loading, _, hload, rfl, .inr rfl⟩
  | _ => cases hsource

namespace Assembly

variable {target : Target} {text : String} {options : TranspileOptions}

/-- Each statement is edited with the modules loaded that are named before it. -/
theorem itemEdits_of_append
    {loaded : List String}
    {before after : List Item}
    {item : Item}
    {edits : List Edit}
    (a : Assembly target text options)
    (h : declarationEdits target a.view loaded (before ++ item :: after) = .ok edits) :
    ∃ own named, itemEdits target a.view (loaded ++ before.filterMap Item.source?) item =
        .ok (own, named) ∧ own ⊆ edits := by
  induction before generalizing loaded edits with
  | nil =>
      obtain ⟨⟨own, named⟩, hown, h⟩ := bind_eq_ok.mp h
      obtain ⟨more, -, h⟩ := bind_eq_ok.mp h
      cases h
      exact ⟨own, named, by simpa using hown, by simp⟩
  | cons other before ih =>
      obtain ⟨⟨first, named⟩, hfirst, h⟩ := bind_eq_ok.mp h
      obtain ⟨more, hmore, h⟩ := bind_eq_ok.mp h
      cases h
      obtain ⟨hnamed, -⟩ := a.loads_itemEdits hfirst
      obtain ⟨own, named', hown, hsubset⟩ := ih hmore
      refine ⟨own, named', ?_, fun e he => List.mem_append_right _ (hsubset he)⟩
      have hsources : loaded ++ (other :: before).filterMap Item.source? =
          loaded ++ named ++ before.filterMap Item.source? := by
        rw [hnamed, List.filterMap_cons]
        cases other.source? <;> simp
      rwa [hsources]

theorem mem_edits_of_declaration
    {e : Edit}
    (a : Assembly target text options)
    (he : e ∈ a.declarations) :
    e ∈ a.edits := by
  simp only [edits, moduleEdits, List.mem_append]
  exact .inl (.inl (.inl he))

theorem mem_edits_of_rewriting
    {w : Rewriting}
    (a : Assembly target text options)
    (hw : w ∈ rewritings a.program a.catalog) :
    w.edit options.format ∈ a.edits := by
  have hmem : w.edit options.format ∈ a.references := by
    rw [a.references_eq]
    exact List.mem_map_of_mem hw
  simp only [edits, moduleEdits, List.mem_append]
  exact .inl (.inl (.inr hmem))

/-! ### Places of the output -/

/-- The output up to the byte `p` of the text. -/
def upTo (a : Assembly target text options) (p : Nat) : List Char :=
  a.header.toList ++ spliced a.edits 0 (Piece.splitBytes p text.toList).1

/-- What an edit writes ends before the place of another edit begins. -/
def EndsBefore (a : Assembly target text options) (e e' : Edit) : Prop :=
  a.upTo e.span.start ++ e.text.toList <+: a.upTo e'.span.start

theorem upTo_eq
    {front rest : List Char}
    (a : Assembly target text options)
    (htext : text.toList = front ++ rest) :
    a.upTo (byteLength front) = a.header.toList ++ spliced a.edits 0 front := by
  rw [upTo, htext, Piece.splitBytes_byteLength]

/-- A replacement stands at its place, before everything that comes behind it in the text. -/
theorem upTo_replaced
    {e : Edit}
    {front rest : List Char}
    (a : Assembly target text options)
    (he : e ∈ a.edits)
    (hspan : e.span.start < e.span.stop)
    (htext : text.toList = front ++ rest)
    (hfront : e.span.stop ≤ byteLength front) :
    a.upTo e.span.start ++ e.text.toList <+: a.upTo (byteLength front) := by
  obtain ⟨⟨before, behind, hbefore, hstart⟩, before', behind', hbefore', hstop⟩ :=
    a.applicable.whole e he
  obtain ⟨source, rfl, rfl⟩ :=
    append_eq_append_of_le (hbefore.symm.trans hbefore') (by omega)
  obtain ⟨middle, rfl, rfl⟩ :=
    append_eq_append_of_le (hbefore'.symm.trans htext) (by omega)
  have hsource : source ≠ [] := by
    rintro rfl
    simp only [List.append_nil] at hstop
    omega
  obtain ⟨back, hback⟩ :=
    a.applicable.spliced_of_replaced he hstart.symm hstop.symm hsource middle
  refine ⟨back, ?_⟩
  rw [a.upTo_eq htext, ← hstart, a.upTo_eq hbefore, List.append_assoc before, hback]
  simp only [List.append_assoc]

/-- The code begins with the output of the whole text. -/
theorem Gives.upTo_text
    {a : Assembly target text options}
    {r : Rendered}
    (h : a.Gives r) :
    a.upTo (byteLength text.toList) <+: r.code.toList :=
  ⟨a.footer.toList, by rw [a.upTo_eq (List.append_nil text.toList).symm, h.code]⟩

/-- A replacement stands in the code. -/
theorem Gives.replaced_prefix
    {a : Assembly target text options}
    {r : Rendered}
    {e : Edit}
    (h : a.Gives r)
    (he : e ∈ a.edits)
    (hspan : e.span.start < e.span.stop) :
    a.upTo e.span.start ++ e.text.toList <+: r.code.toList := by
  have hall := (List.append_nil text.toList).symm
  exact (a.upTo_replaced he hspan hall (a.applicable.whole e he).2.le_byteLength).trans h.upTo_text

/-- Of two replacements, the one that stands first in the text stands first in the output. -/
theorem endsBefore_iff
    {e e' : Edit}
    (a : Assembly target text options)
    (he : e ∈ a.edits)
    (he' : e' ∈ a.edits)
    (hspan : e.span.start < e.span.stop)
    (hspan' : e'.span.start < e'.span.stop)
    (htext : e.text ≠ "")
    (hapart : e.span.Apart e'.span) :
    a.EndsBefore e e' ↔ e.span.stop ≤ e'.span.start := by
  have hforward : ∀ {x y : Edit}, x ∈ a.edits → y ∈ a.edits → x.span.start < x.span.stop →
      x.span.stop ≤ y.span.start → a.EndsBefore x y := by
    intro x y hx hy hlt hle
    obtain ⟨⟨front, rest, hfront, hstart⟩, -⟩ := a.applicable.whole y hy
    rw [EndsBefore, ← hstart]
    exact a.upTo_replaced hx hlt hfront (hstart ▸ hle)
  refine ⟨fun hends => ?_, hforward he he' hspan⟩
  rcases hapart with hle | hle
  · exact hle
  · -- otherwise each of the two would end before the other one
    have hlen := hends.length_le
    have hlen' := (hforward he' he hspan' hle).length_le
    simp only [List.length_append] at hlen hlen'
    have hzero : e.text.toList.length = 0 := by omega
    exact absurd (String.toList_eq_nil_iff.mp (List.length_eq_zero_iff.mp hzero)) htext

/-! ### The statement that loads a module -/

/-- The module that a rewritten identifier reads is loaded by the edit `loading`, in the place of
the first statement that names the module.  All other statements that name it load nothing. -/
structure LoadedBy (a : Assembly target text options) (w : Rewriting) (first : Item)
    (loading : Edit) : Prop where
  mem : loading ∈ a.declarations
  found : a.program.items.find? (·.source? == some w.entry.source) = some first
  place : loading.span = first.span
  declares : ∃ value rest, loading.text = "var " ++ w.handle ++ " = " ++ value ++ ";" ++ rest
  once :
    ∀ item ∈ a.program.items, item.source? = some w.entry.source → item ≠ first →
      ∃ e ∈ a.declarations, e.span = item.span ∧
        (e.text = "" ∨ e.text = trimEnd (target.starExport a.view w.handle))

/-- What takes the place of a statement that names the module of a rewritten identifier. -/
theorem exists_edit_of_source
    {w : Rewriting}
    {before after : List Item}
    {item : Item}
    (a : Assembly target text options)
    (hw : w ∈ rewritings a.program a.catalog)
    (hitems : a.program.items = before ++ item :: after)
    (hsource : item.source? = some w.entry.source) :
    ∃ key loading statement,
      replaceOrRemove item.span statement ∈ a.declarations ∧
      (statement = loading ∨
        statement = starStatement loading (target.starExport a.view w.handle)) ∧
      (w.entry.source ∈ before.filterMap Item.source? ∧ loading = "" ∨
        w.entry.source ∉ before.filterMap Item.source? ∧
          loading = target.importStatement a.view ⟨w.handle, w.entry.source, key⟩) := by
  have hdeclarations : declarationEdits target a.view [] (before ++ item :: after) =
      .ok a.declarations := hitems ▸ a.hdeclarations
  obtain ⟨own, named, hown, hsubset⟩ := a.itemEdits_of_append hdeclarations
  obtain ⟨handle, loading, statement, hload, rfl, hstatement⟩ := itemEdits_of_source hown hsource
  obtain ⟨i, key, hi, -, hhandle, hcase⟩ := a.load_cases hload
  obtain ⟨j, hj, hnumber⟩ := Catalog.getElem?_of_handle? (mem_rewritings hw).2.2
  cases a.number_unique hi hj
  obtain rfl : handle = w.handle := hhandle.trans hnumber.symm
  rw [List.nil_append, ← hhandle] at hcase
  exact ⟨key, loading, statement, hsubset (List.mem_singleton_self _), hstatement, hcase⟩

theorem exists_loadedBy
    (htarget : ByStatements target)
    (a : Assembly target text options)
    {w : Rewriting}
    (hw : w ∈ rewritings a.program a.catalog) :
    ∃ first loading, a.LoadedBy w first loading := by
  obtain ⟨-, himport, -⟩ := mem_rewritings hw
  have hcovers := Catalog.covers_build a.hcatalog
  obtain ⟨item, hitem, hnames⟩ := hcovers.mem_sources_iff.mp
    (hcovers.closed.imports w.entry (List.mem_of_find?_eq_some himport))
  obtain ⟨first, hfirst⟩ : ∃ first,
      a.program.items.find? (·.source? == some w.entry.source) = some first :=
    Option.isSome_iff_exists.mp (List.find?_isSome.mpr ⟨item, hitem, by simp [hnames]⟩)
  obtain ⟨hsource, before, after, hitems, hnone⟩ := List.find?_eq_some_iff_append.mp hfirst
  obtain ⟨key, loading, statement, hmem, hstatement, hcase⟩ :=
    a.exists_edit_of_source hw hitems (beq_iff_eq.mp hsource)
  have hnew : w.entry.source ∉ before.filterMap Item.source? := by
    intro hloaded
    obtain ⟨other, hother, hnames⟩ := List.mem_filterMap.mp hloaded
    simpa [hnames] using hnone other hother
  have hloading : loading = target.importStatement a.view ⟨w.handle, w.entry.source, key⟩ :=
    (hcase.resolve_left fun h => hnew h.1).2
  obtain ⟨value, hvalue⟩ := htarget.importStatement_eq a.view ⟨w.handle, w.entry.source, key⟩
  refine ⟨first, _, hmem, hfirst, span_replaceOrRemove _ _, ?_, ?_⟩
  · rw [text_replaceOrRemove]
    rcases hstatement with rfl | rfl
    · exact ⟨value, "", by rw [hloading, hvalue, String.append_empty]⟩
    · obtain ⟨rest, hrest⟩ := starStatement_eq loading (target.starExport a.view w.handle)
      exact ⟨value, rest, by rw [hrest, hloading, hvalue]⟩
  · intro other hother hnames hne
    obtain ⟨before', after', hitems'⟩ := List.append_of_mem hother
    -- the first statement that names the module is another one, so it comes before
    have hloaded : w.entry.source ∈ before'.filterMap Item.source? := by
      by_contra hnot
      have hskip : before'.find? (·.source? == some w.entry.source) = none := by
        rw [List.find?_eq_none]
        intro x hx hname
        exact hnot (List.mem_filterMap.mpr ⟨x, hx, beq_iff_eq.mp hname⟩)
      rw [hitems', List.find?_append, hskip, Option.none_or, List.find?_cons] at hfirst
      simp only [hnames, beq_self_eq_true] at hfirst
      exact hne (Option.some.inj hfirst)
    obtain ⟨key', loading', statement', hmem', hstatement', hcase'⟩ :=
      a.exists_edit_of_source hw hitems' hnames
    obtain rfl : loading' = "" := (hcase'.resolve_right fun h => h.1 hloaded).2
    refine ⟨_, hmem', span_replaceOrRemove _ _, ?_⟩
    rw [text_replaceOrRemove]
    exact hstatement'.imp_right fun h => by simpa [starStatement] using h

theorem LoadedBy.text_ne_empty
    {a : Assembly target text options}
    {w : Rewriting}
    {first : Item}
    {loading : Edit}
    (h : a.LoadedBy w first loading) :
    loading.text ≠ "" := by
  obtain ⟨value, rest, htext⟩ := h.declares
  simp [htext, String.append_eq_empty_iff]

/-- Statements that name a module are not empty. -/
theorem start_lt_of_source
    {item : Item}
    {source : String}
    (a : Assembly target text options)
    (hitem : item ∈ a.program.items)
    (hsource : item.source? = some source) :
    item.span.start < item.span.stop := by
  obtain ⟨directives, last, -, -, hspaced, -, -⟩ := Program.spaced_of_parse a.hparse
  have hshaped := hspaced.shaped (List.mem_append_right _ hitem)
  cases item with
  | imports => exact hshaped
  | exportFrom => exact hshaped
  | exportAll => exact hshaped
  | _ => cases hsource

theorem LoadedBy.start_lt
    {a : Assembly target text options}
    {w : Rewriting}
    {first : Item}
    {loading : Edit}
    (h : a.LoadedBy w first loading) :
    first.span.start < first.span.stop :=
  a.start_lt_of_source (List.mem_of_find?_eq_some h.found) (by simpa using List.find?_some h.found)

end Assembly

/-- The statement that loads a module stands before an access to its handle if and only if the first
statement that names the module stands before the identifier, and behind the access otherwise. -/
theorem load_precedes_access_iff
    {target : Target}
    (htarget : ByStatements target)
    {text : String}
    {options : TranspileOptions}
    {r : Rendered}
    (h : transpileFor target text options = .ok r) :
    ∃ a : Assembly target text options, a.Gives r ∧
      ∀ w ∈ rewritings a.program a.catalog, ∃ first loading,
        a.LoadedBy w first loading ∧
        a.upTo first.span.start ++ loading.text.toList <+: r.code.toList ∧
        a.upTo w.occurrence.span.start ++ (w.edit options.format).text.toList <+:
          r.code.toList ∧
        (a.EndsBefore loading (w.edit options.format) ↔
          first.span.stop ≤ w.occurrence.span.start) ∧
        (a.EndsBefore (w.edit options.format) loading ↔
          ¬first.span.stop ≤ w.occurrence.span.start) := by
  obtain ⟨a, hr⟩ := exists_assembly h
  refine ⟨a, hr, fun w hw => ?_⟩
  obtain ⟨first, loading, hloaded⟩ := a.exists_loadedBy htarget hw
  have hload := a.mem_edits_of_declaration hloaded.mem
  have haccess := a.mem_edits_of_rewriting hw
  have hspan : loading.span.start < loading.span.stop := hloaded.place ▸ hloaded.start_lt
  have hspan' : w.occurrence.span.start < w.occurrence.span.stop := by
    obtain ⟨lo, hi, hspread⟩ := a.spread_rewritings
    exact (hspread.inside _ (List.mem_map_of_mem hw)).2.1
  have hapart : loading.span.Apart w.occurrence.span :=
    a.fits.code loading hloaded.mem _ (mem_spansOf (mem_rewritings hw).1)
  have hbefore := a.endsBefore_iff hload haccess hspan hspan' hloaded.text_ne_empty hapart
  have hbehind := a.endsBefore_iff haccess hload hspan' hspan (text_edit_ne_empty hw _) hapart.symm
  refine ⟨first, loading, hloaded, ?_, hr.replaced_prefix haccess hspan', ?_, ?_⟩
  · rw [← hloaded.place]
    exact hr.replaced_prefix hload hspan
  · rw [← hloaded.place]
    exact hbefore
  · rw [hbehind, ← hloaded.place]
    change w.occurrence.span.stop ≤ loading.span.start ↔ _
    rcases hapart with hapart | hapart <;> omega

/-- A module that uses an import before and behind the import declaration. -/
def lateImport : String :=
  "x();\nimport \x7b x, y \x7d from 'm';\ny();\n"

/-- The access in front of the declaration stands before the handle is loaded, the one behind it
after that. -/
theorem load_precedes_access_lateImport :
    ∃ r, transpileFor Target.cjs lateImport ⟨some "n", none, none, {}⟩ = .ok r ∧
      ∃ a : Assembly Target.cjs lateImport ⟨some "n", none, none, {}⟩, a.Gives r ∧
        ∃ w ∈ rewritings a.program a.catalog, ∃ w' ∈ rewritings a.program a.catalog,
        ∃ first first' loading loading',
          a.LoadedBy w first loading ∧ a.LoadedBy w' first' loading' ∧
          w.occurrence.span = ⟨0, 1⟩ ∧ first.span = ⟨5, 30⟩ ∧ w'.occurrence.span = ⟨31, 32⟩ ∧
          first'.span = ⟨5, 30⟩ ∧
          a.EndsBefore (w.edit {}) loading ∧ a.EndsBefore loading' (w'.edit {}) := by
  have hread : ((Program.parse lateImport).toOption.map fun p =>
      ((p.items.find? (·.source? == some "m")).map Item.span,
        (Catalog.build lateImport p).toOption.map fun c =>
          (rewritings p c).map fun w => (w.occurrence.span, w.entry.source))) =
      some (some ⟨5, 30⟩, some [(⟨0, 1⟩, "m"), (⟨31, 32⟩, "m")]) := by
    decide +kernel
  have hok : ((transpileFor Target.cjs lateImport ⟨some "n", none, none, {}⟩).toOption.map
      fun _ => ()) = some () := by
    simp only [transpileFor_eq]
    decide +kernel
  obtain ⟨r, hr, -⟩ := ok_of_toOption_map hok
  obtain ⟨a, hgives, hall⟩ := load_precedes_access_iff .cjs hr
  obtain ⟨program, hparse, hfacts⟩ := ok_of_toOption_map hread
  obtain rfl : program = a.program := Except.ok.inj (hparse.symm.trans a.hparse)
  simp only [Prod.mk.injEq] at hfacts
  obtain ⟨hfound, hbuild⟩ := hfacts
  obtain ⟨catalog, hcatalog, hrewritings⟩ := ok_of_toOption_map hbuild
  obtain rfl : catalog = a.catalog := Except.ok.inj (hcatalog.symm.trans a.hcatalog)
  obtain ⟨w, ws, hws, hw, hmore⟩ := List.map_eq_cons_iff.mp hrewritings
  obtain ⟨w', ws', rfl, hw', -⟩ := List.map_eq_cons_iff.mp hmore
  simp only [Prod.mk.injEq] at hw hw'
  have hmem : w ∈ rewritings a.program a.catalog := by simp [hws]
  have hmem' : w' ∈ rewritings a.program a.catalog := by simp [hws]
  obtain ⟨first, loading, hloaded, -, -, -, hbehind⟩ := hall w hmem
  obtain ⟨first', loading', hloaded', -, -, hbefore, -⟩ := hall w' hmem'
  have hspan : first.span = ⟨5, 30⟩ := by
    have h := hloaded.found
    rw [hw.2] at h
    simpa [h] using hfound
  have hspan' : first'.span = ⟨5, 30⟩ := by
    have h := hloaded'.found
    rw [hw'.2] at h
    simpa [h] using hfound
  refine ⟨r, hr, a, hgives, w, hmem, w', hmem', first, first', loading, loading', hloaded, hloaded',
    hw.1, hspan, hw'.1, hspan', hbehind.mpr ?_, hbefore.mpr ?_⟩
  · rw [hspan, hw.1]
    decide
  · rw [hspan', hw'.1]
    decide

/-- A handle is read before it is loaded where an import stands behind its use. -/
theorem lateImport_read_before_loaded :
    (transpileFor (Target.commonJs []) lateImport
        ⟨some "n", none, none, {}⟩).toOption.map (·.code) =
      some ("\"use strict\";\nvar __es6_module__ = exports;\n__imports_0__.x();\n" ++
        "var __imports_0__ = require(\"m\");\n__imports_0__.y();\n") := by
  simp only [transpileFor_eq]
  decide +kernel

end Transpile
end EsModules
