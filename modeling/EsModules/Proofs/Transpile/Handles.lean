import EsModules.Proofs.Catalog.Entries
import EsModules.Proofs.Transpile.NamedMappings
import EsModules.Target.System

/-!
# Handles

The sources of a module are numbered in the order of their first mention, and each has a handle
with its number.  The registry keys, the handles and the statements that load a module are made in
different places; here they are shown to use one numbering (`Linked`): what is imported from the
source with the number `i` is read on the handle with that number, and that handle is loaded with
the key of that source.
-/

namespace EsModules

open Syntax

namespace Transpile

variable {target : Target} {text : String} {options : TranspileOptions}

/-! ### Statements that load modules -/

/-- What takes the place of an import or export, where the sources and their registry keys are
numbered. -/
inductive Replacement (target : Target) (view : ModuleView) (sources keys : List String) :
    String → Prop where
  | nothing : Replacement target view sources keys ""
  /-- A source is loaded into its handle. -/
  | load
      {i : Nat}
      {source key : String}
      (hsource : sources[i]? = some source)
      (hkey : keys[i]? = some key) :
      Replacement target view sources keys
        (target.importStatement view ⟨Catalog.handleName i, source, key⟩)
  /-- All names of a source are published, which is loaded before if need be. -/
  | star
      {i : Nat}
      {source key loading : String}
      (hsource : sources[i]? = some source)
      (hkey : keys[i]? = some key)
      (hloading : loading = "" ∨
        loading = target.importStatement view ⟨Catalog.handleName i, source, key⟩) :
      Replacement target view sources keys
        (starStatement loading (target.starExport view (Catalog.handleName i)))
  | defaultValue : Replacement target view sources keys defaultAssignment
  | semicolon : Replacement target view sources keys ";"

/-- The edits of statements: each is a replacement, and each source that was not loaded before is
loaded into its handle. -/
structure Loads (target : Target) (view : ModuleView) (sources keys loaded named : List String)
    (edits : List Edit) : Prop where
  texts : ∀ e ∈ edits, Replacement target view sources keys e.text
  loads : ∀ source ∈ named, source ∉ loaded →
    ∃ i key, sources[i]? = some source ∧ keys[i]? = some key ∧
      ∃ e ∈ edits, ∃ rest,
        e.text = target.importStatement view ⟨Catalog.handleName i, source, key⟩ ++ rest

theorem Loads.nil (target : Target) (view : ModuleView) (sources keys loaded : List String) :
    Loads target view sources keys loaded [] [] :=
  ⟨by simp, by simp⟩

/-- Statements without a source load nothing. -/
theorem Loads.of_texts
    {view : ModuleView}
    {sources keys loaded : List String}
    {edits : List Edit}
    (h : ∀ e ∈ edits, Replacement target view sources keys e.text) :
    Loads target view sources keys loaded [] edits :=
  ⟨h, by simp⟩

/-- What is loaded at first is not loaded again. -/
theorem Loads.append
    {view : ModuleView}
    {sources keys loaded named named' : List String}
    {edits edits' : List Edit}
    (h : Loads target view sources keys loaded named edits)
    (h' : Loads target view sources keys (loaded ++ named) named' edits') :
    Loads target view sources keys loaded (named ++ named') (edits ++ edits') := by
  refine ⟨List.forall_mem_append.mpr ⟨h.texts, h'.texts⟩, ?_⟩
  intro source hsource hnew
  by_cases hnamed : source ∈ named
  · obtain ⟨i, key, hi, hkey, e, he, hrest⟩ := h.loads source hnamed hnew
    exact ⟨i, key, hi, hkey, e, List.mem_append_left _ he, hrest⟩
  · have hnamed' : source ∈ named' := (List.mem_append.mp hsource).resolve_left hnamed
    have hnew' : source ∉ loaded ++ named := by simp [hnew, hnamed]
    obtain ⟨i, key, hi, hkey, e, he, hrest⟩ := h'.loads source hnamed' hnew'
    exact ⟨i, key, hi, hkey, e, List.mem_append_right _ he, hrest⟩

/-- A statement is replaced by one that loads its source, unless that is loaded already. -/
theorem Loads.statement
    {view : ModuleView}
    {sources keys loaded : List String}
    {i : Nat}
    {source key statement : String}
    (hsource : sources[i]? = some source)
    (hkey : keys[i]? = some key)
    (hloading : source ∈ loaded ∨
      ∃ rest, statement =
        target.importStatement view ⟨Catalog.handleName i, source, key⟩ ++ rest)
    (hstatement : Replacement target view sources keys statement)
    (span : Span) :
    Loads target view sources keys loaded [source] [replaceOrRemove span statement] := by
  refine ⟨?_, ?_⟩
  · rw [List.forall_mem_singleton, text_replaceOrRemove]
    exact hstatement
  · rw [List.forall_mem_singleton]
    intro hnew
    obtain ⟨rest, hrest⟩ := hloading.resolve_left hnew
    exact ⟨i, key, hsource, hkey, _, List.mem_singleton_self _, rest,
      (text_replaceOrRemove span statement).trans hrest⟩

theorem starStatement_eq (loading publishing : String) :
    ∃ rest, starStatement loading publishing = loading ++ rest := by
  by_cases hnone : loading = ""
  · exact ⟨Text.trimEnd publishing, by simp [starStatement, hnone]⟩
  · exact ⟨"\n" ++ Text.trimEnd publishing, by
      simp [starStatement, hnone, String.append_assoc]⟩

theorem replacement_defaultEdits
    (view : ModuleView)
    (sources keys : List String)
    (span inner : Span)
    (value : DefaultValue) :
    ∀ e ∈ defaultEdits span inner value, Replacement target view sources keys e.text := by
  have hboth : ∀ e ∈ [Edit.replace ⟨span.start, inner.start⟩ defaultAssignment,
      .insert inner.stop ";"], Replacement target view sources keys e.text := by
    rw [List.forall_mem_cons, List.forall_mem_singleton]
    exact ⟨.defaultValue, .semicolon⟩
  cases value with
  | function name =>
      cases name with
      | some name => exact List.forall_mem_singleton.mpr .nothing
      | none => exact hboth
  | classDef name =>
      cases name with
      | some name => exact List.forall_mem_singleton.mpr .nothing
      | none => exact hboth
  | name name => exact List.forall_mem_singleton.mpr .nothing
  | expression => exact List.forall_mem_singleton.mpr .defaultValue
  | interface => exact List.forall_mem_singleton.mpr .defaultValue

theorem requireHandle_eq_ok
    {view : ModuleView}
    {source handle : String}
    (h : view.requireHandle source = .ok handle) :
    view.catalog.handle? source = some handle := by
  unfold ModuleView.requireHandle at h
  split at h
  · cases h
    assumption
  · cases h

namespace Assembly

/-- The registry keys in the order of their sources. -/
def keyTexts (a : Assembly target text options) : List String :=
  a.keys.map (·.2)

/-- The keys are those of the sources. -/
theorem forall₂_keyTexts (a : Assembly target text options) :
    List.Forall₂ (fun source key => options.registryKey source = .ok key) a.catalog.sources
      a.keyTexts := by
  rw [keyTexts, List.forall₂_map_right_iff]
  exact (forall₂_registryKeys a.hkeys).imp fun _ _ h => h.2

theorem number_unique
    {i j : Nat}
    {source : String}
    (a : Assembly target text options)
    (hi : a.catalog.sources[i]? = some source)
    (hj : a.catalog.sources[j]? = some source) :
    i = j := by
  have hnodup : a.catalog.sources.Nodup := by
    rw [Catalog.sources_build a.hcatalog]
    exact nodup_eraseDups _
  obtain ⟨hlt, -⟩ := List.getElem?_eq_some_iff.mp hi
  exact (List.getElem?_inj hlt hnodup).mp (hi.trans hj.symm)

/-- The key that is found for a source has the number of the source. -/
theorem getElem?_of_find?_keys
    {source : String}
    {entry : String × String}
    (a : Assembly target text options)
    (h : a.keys.find? (·.1 == source) = some entry) :
    ∃ i : Nat, a.catalog.sources[i]? = some source ∧ a.keyTexts[i]? = some entry.2 := by
  obtain ⟨hname, i, hlt, hentry, -⟩ := List.find?_eq_some_iff_getElem.mp h
  have hat : a.keys[i]? = some entry := List.getElem?_eq_some_iff.mpr ⟨hlt, hentry⟩
  refine ⟨i, ?_, ?_⟩
  · rw [← map_registryKeys a.hkeys, List.getElem?_map, hat]
    simpa using hname
  · rw [keyTexts, List.getElem?_map, hat]
    rfl

/-- The handle of a source, its key and its loading statement have one number. -/
theorem load_cases
    {loaded : List String}
    {source handle statement : String}
    (a : Assembly target text options)
    (h : load target a.view loaded source = .ok (handle, statement)) :
    ∃ i key, a.catalog.sources[i]? = some source ∧ a.keyTexts[i]? = some key ∧
      handle = Catalog.handleName i ∧
      (source ∈ loaded ∧ statement = "" ∨ source ∉ loaded ∧
        statement = target.importStatement a.view ⟨Catalog.handleName i, source, key⟩) := by
  obtain ⟨handle', hrequire, h⟩ := bind_eq_ok.mp h
  obtain ⟨i, hi, rfl⟩ := Catalog.getElem?_of_handle? (requireHandle_eq_ok hrequire)
  obtain ⟨entry, hentry⟩ := a.ready.keys source (List.mem_of_getElem? hi)
  obtain ⟨j, hj, hkey⟩ := a.getElem?_of_find?_keys hentry
  cases a.number_unique hi hj
  refine ⟨i, entry.2, hi, hkey, ?_⟩
  split at h
  · rename_i hloaded
    cases h
    exact ⟨rfl, .inl ⟨by simpa using hloaded, rfl⟩⟩
  · rename_i hloaded
    rw [hentry] at h
    cases h
    exact ⟨rfl, .inr ⟨by simpa using hloaded, rfl⟩⟩

/-- A statement is replaced and loads its source. -/
theorem loads_itemEdits
    {loaded named : List String}
    {item : Item}
    {edits : List Edit}
    (a : Assembly target text options)
    (h : itemEdits target a.view loaded item = .ok (edits, named)) :
    named = item.source?.toList ∧
      Loads target a.view a.catalog.sources a.keyTexts loaded named edits := by
  have hplain : ∀ span source,
      (load target a.view loaded source >>= fun loading =>
        pure ([replaceOrRemove span loading.2], [source])) = .ok (edits, named) →
      named = [source] ∧
        Loads target a.view a.catalog.sources a.keyTexts loaded named edits := by
    intro span source h
    obtain ⟨⟨handle, statement⟩, hload, h⟩ := bind_eq_ok.mp h
    cases h
    obtain ⟨i, key, hi, hkey, -, hcase⟩ := a.load_cases hload
    refine ⟨rfl, .statement hi hkey ?_ ?_ span⟩
    · rcases hcase with ⟨hloaded, -⟩ | ⟨-, rfl⟩
      · exact .inl hloaded
      · exact .inr ⟨"", by simp⟩
    · rcases hcase with ⟨-, rfl⟩ | ⟨-, rfl⟩
      · exact .nothing
      · exact .load hi hkey
  cases item with
  | imports span source bindings => exact hplain span source h
  | exportDeclaration span inner exported code =>
      cases h
      exact ⟨rfl, .of_texts (List.forall_mem_singleton.mpr .nothing)⟩
  | exportList span specifiers =>
      cases h
      exact ⟨rfl, .of_texts (List.forall_mem_singleton.mpr .nothing)⟩
  | exportFrom span source specifiers => exact hplain span source h
  | exportDefault span inner value code =>
      cases h
      exact ⟨rfl, .of_texts (replacement_defaultEdits _ _ _ span inner value)⟩
  | exportAll span source exported =>
      cases exported with
      | some name => exact hplain span source h
      | none =>
          obtain ⟨⟨handle, statement⟩, hload, h⟩ := bind_eq_ok.mp h
          cases h
          obtain ⟨i, key, hi, hkey, rfl, hcase⟩ := a.load_cases hload
          refine ⟨rfl, .statement hi hkey ?_ (.star hi hkey ?_) span⟩
          · rcases hcase with ⟨hloaded, -⟩ | ⟨-, rfl⟩
            · exact .inl hloaded
            · exact .inr (starStatement_eq _ _)
          · exact hcase.imp And.right And.right
  | statement span isText code =>
      cases h
      exact ⟨rfl, .nil _ _ _ _ _⟩

theorem loads_declarationEdits
    {loaded : List String}
    {items : List Item}
    {edits : List Edit}
    (a : Assembly target text options)
    (h : declarationEdits target a.view loaded items = .ok edits) :
    Loads target a.view a.catalog.sources a.keyTexts loaded (items.filterMap Item.source?)
      edits := by
  induction items generalizing loaded edits with
  | nil =>
      cases h
      exact .nil _ _ _ _ _
  | cons item items ih =>
      obtain ⟨⟨first, named⟩, hfirst, h⟩ := bind_eq_ok.mp h
      obtain ⟨more, hmore, h⟩ := bind_eq_ok.mp h
      cases h
      obtain ⟨hnamed, hloads⟩ := a.loads_itemEdits hfirst
      have hsources : (item :: items).filterMap Item.source? =
          named ++ items.filterMap Item.source? := by
        rw [hnamed, List.filterMap_cons]
        cases item.source? <;> rfl
      rw [hsources]
      exact hloads.append (ih hmore)

end Assembly

/-! ### References and getters -/

/-- An imported name is replaced by an access to the handle with the number of its source. -/
def ReadsImport (program : Program) (format : FormatOptions) (e : Edit) : Prop :=
  ∃ o ∈ program.occurrences, ∃ entry ∈ program.importEntries, ∃ i : Nat,
    entry.name = o.name ∧ program.distinctSources[i]? = some entry.source ∧
      e = .rename o.span (renamed format o entry (Catalog.handleName i))

/-- The getter of a public name gives a binding of the module itself, or reads what the name stands
for on the handle with the number of its source. -/
inductive Getter (program : Program) (format : FormatOptions) :
    ExportEntry → String × String → Prop where
  | own
      {exported name : String}
      (hname : ∀ entry ∈ program.importEntries, entry.name ≠ name) :
      Getter program format ⟨exported, .own name⟩ (exported, name)
  /-- The name of an import is exported. -/
  | imported
      {i : Nat}
      {exported : String}
      {entry : ImportEntry}
      (hentry : entry ∈ program.importEntries)
      (hsource : program.distinctSources[i]? = some entry.source) :
      Getter program format ⟨exported, .own entry.name⟩
        (exported, accessExpression (Catalog.handleName i) entry.kind format)
  | reExport
      {i : Nat}
      {exported source : String}
      {kind : ImportKind}
      (hsource : program.distinctSources[i]? = some source) :
      Getter program format ⟨exported, .reExport source kind⟩
        (exported, accessExpression (Catalog.handleName i) kind format)

namespace Assembly

/-- The handle of a source has its number. -/
theorem getElem?_of_requireHandle
    {source handle : String}
    (a : Assembly target text options)
    (h : a.view.requireHandle source = .ok handle) :
    ∃ i : Nat, a.program.distinctSources[i]? = some source ∧ handle = Catalog.handleName i := by
  rw [← Catalog.sources_build a.hcatalog]
  exact Catalog.getElem?_of_handle? (requireHandle_eq_ok h)

theorem readsImport_references (a : Assembly target text options) :
    ∀ e ∈ a.references, ReadsImport a.program options.format e := by
  intro e he
  rw [a.references_eq] at he
  obtain ⟨w, hw, rfl⟩ := List.mem_map.mp he
  obtain ⟨ho, himport, hhandle⟩ := mem_rewritings hw
  have hmem := List.mem_of_find?_eq_some himport
  have hname := List.find?_some himport
  rw [(Catalog.lists_build a.hcatalog).1] at hmem
  obtain ⟨i, hi, hi'⟩ := Catalog.getElem?_of_handle? hhandle
  rw [Catalog.sources_build a.hcatalog] at hi
  exact ⟨w.occurrence, ho, w.entry, hmem, i, by simpa using hname, hi, by rw [Rewriting.edit, hi']⟩

theorem getter_of_exportValue
    {e : ExportEntry}
    {value : String}
    (a : Assembly target text options)
    (h : a.view.exportValue (Catalog.linkExport a.program.importEntries e).binding = .ok value) :
    Getter a.program options.format e (e.exported, value) := by
  obtain ⟨exported, binding⟩ := e
  cases binding with
  | own name =>
      cases hfind : a.program.importEntries.find? (·.name == name) with
      | none =>
          simp only [Catalog.linkExport, hfind] at h
          cases h
          exact .own (by simpa using hfind)
      | some entry =>
          simp only [Catalog.linkExport, hfind] at h
          obtain ⟨handle, hhandle, h⟩ := bind_eq_ok.mp h
          cases h
          obtain ⟨i, hi, rfl⟩ := a.getElem?_of_requireHandle hhandle
          obtain rfl : entry.name = name := by simpa using List.find?_some hfind
          exact .imported (List.mem_of_find?_eq_some hfind) hi
  | reExport source kind =>
      obtain ⟨handle, hhandle, h⟩ := bind_eq_ok.mp h
      cases h
      obtain ⟨i, hi, rfl⟩ := a.getElem?_of_requireHandle hhandle
      exact .reExport hi

/-- Each public name has its getter. -/
theorem getters_exportAccessors
    {accessors : List (String × String)}
    (a : Assembly target text options)
    (h : a.view.exportAccessors = .ok accessors) :
    List.Forall₂ (Getter a.program options.format) a.program.exportEntries accessors := by
  have hall := forall₂_of_mapM h
  have hexports : a.view.catalog.exports =
      a.program.exportEntries.map (Catalog.linkExport a.program.importEntries) :=
    (Catalog.lists_build a.hcatalog).2.1
  rw [hexports, List.forall₂_map_left_iff] at hall
  refine hall.imp ?_
  intro e accessor haccessor
  obtain ⟨value, hvalue, hpair⟩ := bind_eq_ok.mp haccessor
  cases hpair
  rw [Catalog.exported_linkExport]
  exact a.getter_of_exportValue hvalue

/-- The sources, their registry keys, the handles and all that reads them have one numbering. -/
structure Linked
    (a : Assembly target text options)
    (keys : List String)
    (accessors : List (String × String)) :
    Prop where
  distinct : a.program.distinctSources.Nodup ∧
    (Catalog.handleNames a.program.distinctSources.length).Nodup
  keyed : List.Forall₂ (fun source key => options.registryKey source = .ok key)
    a.program.distinctSources keys
  loads : Loads target a.view a.program.distinctSources keys [] (Catalog.namedSources a.program)
    a.declarations
  references : ∀ e ∈ a.references, ReadsImport a.program options.format e
  getters : List.Forall₂ (Getter a.program options.format) a.program.exportEntries accessors

theorem linked
    {accessors : List (String × String)}
    (a : Assembly target text options)
    (h : a.view.exportAccessors = .ok accessors) :
    a.Linked a.keyTexts accessors where
  distinct := ⟨nodup_eraseDups _, Catalog.nodup_handleNames _⟩
  keyed := Catalog.sources_build a.hcatalog ▸ a.forall₂_keyTexts
  loads := Catalog.sources_build a.hcatalog ▸ a.loads_declarationEdits a.hdeclarations
  references := a.readsImport_references
  getters := a.getters_exportAccessors h

/-! ### Wrappers -/

theorem handles_view (a : Assembly target text options) :
    a.view.handles = Catalog.handleNames a.program.distinctSources.length := by
  rw [← Catalog.sources_build a.hcatalog]
  exact Catalog.map_handles a.catalog

/-- Only a hashbang stands before the header of the target. -/
theorem header_eq (a : Assembly target text options) :
    ∃ line, (a.program.hashbang = none → line = "") ∧ a.header = line ++ a.wrapper.header := by
  unfold header hoistHashbang
  split
  · exact ⟨"", fun _ => rfl, by simp⟩
  · rename_i hhashbang
    split
    · exact ⟨"", fun _ => rfl, by simp⟩
    · exact ⟨_, fun hnone => (by rw [hhashbang] at hnone; cases hnone), rfl⟩

end Assembly

/-- The getters on an exports object that is a parameter. -/
def parameterGetters (accessors : List (String × String)) (format : FormatOptions) : String :=
  s!"var {moduleVariable} = __exports__;\n" ++ exportGetters moduleVariable accessors format 0

theorem exportsPrologue_eq_ok
    {view : ModuleView}
    {prologue : String}
    (h : Target.exportsPrologue view = .ok prologue) :
    ∃ accessors, view.exportAccessors = .ok accessors ∧
      prologue = parameterGetters accessors view.format := by
  obtain ⟨getters, hgetters, h⟩ := bind_eq_ok.mp h
  obtain ⟨accessors, haccessors, hgetters⟩ := bind_eq_ok.mp hgetters
  cases hgetters
  cases h
  exact ⟨accessors, haccessors, rfl⟩

/-- The dependencies of an `amd` module are the keys of its sources, and the parameters of its
factory are their handles. -/
structure AmdLinked
    (a : Assembly Target.amd text options)
    (keys : List String)
    (accessors : List (String × String)) :
    Prop extends a.Linked keys accessors where
  header : ∃ line, (a.program.hashbang = none → line = "") ∧
    a.header = line ++ ("define(" ++ moduleNameArgument a.view ++ "[" ++
      a.view.quoteAll ("exports" :: keys) ++ "], function (" ++
      String.intercalate ", "
        ("__exports__" :: Catalog.handleNames a.program.distinctSources.length) ++ ") \x7b\n")
  prologue : a.prologue = parameterGetters accessors options.format

/-- A `yui` module requires the keys of its sources. -/
structure YuiLinked
    (a : Assembly Target.yui text options)
    (keys : List String)
    (accessors : List (String × String)) :
    Prop extends a.Linked keys accessors where
  footer : a.footer = tail text ("return " ++ moduleVariable ++ ";\n") ++
    ("\x7d, " ++ a.view.quote "@VERSION@" ++ ", \x7b " ++ a.view.quote "es" ++ ": true, " ++
      a.view.quote "requires" ++ ": [" ++ a.view.quoteAll keys ++ "] \x7d);\n")
  prologue : a.prologue = parameterGetters accessors options.format

/-- The dependencies of a `system` module are those that the graph names, and the parameters of its
function are the handles of its sources.  The getters for names that come through `export *` read
these handles too. -/
structure SystemLinked
    {links : Target.SystemLinks}
    (a : Assembly (Target.system links) text options)
    (keys : List String)
    (accessors : List (String × String)) :
    Prop extends a.Linked keys accessors where
  header : ∃ line middle, (a.program.hashbang = none → line = "") ∧
    a.header = line ++ ("System.register(" ++ a.view.quote a.name ++ ", [" ++
      a.view.quoteAll links.dependencyNames ++ "], function () \x7b\n" ++ middle ++
      (a.view.format.indentBy 2 ++ a.view.quote "deps" ++ ": [" ++
        a.view.quoteAll links.dependencyNames ++ "],\n") ++
      (a.view.format.indentBy 2 ++ a.view.quote "fn" ++ ": function (" ++
        String.intercalate ", " (Catalog.handleNames a.program.distinctSources.length) ++
        ") \x7b\n") ++
      (a.view.quote "use strict" ++ ";\n"))
  prologue : a.prologue =
    exportGetters moduleVariable (accessors ++ links.starAccessors) options.format 0 ++
      ("Object.seal(" ++ moduleVariable ++ ");\n")

theorem exists_amdLinked
    {r : Rendered}
    (h : transpileFor Target.amd text options = .ok r) :
    ∃ (a : Assembly Target.amd text options) (keys : List String)
      (accessors : List (String × String)), a.Gives r ∧ AmdLinked a keys accessors := by
  obtain ⟨a, hr⟩ := exists_assembly h
  obtain ⟨accessors, haccessors, hprologue⟩ := exportsPrologue_eq_ok a.hprologue
  obtain ⟨line, hline, hheader⟩ := a.header_eq
  have hwrapper : Target.amdWrapper a.view = a.wrapper := Except.ok.inj a.hwrapper
  refine ⟨a, a.keyTexts, accessors, hr, a.linked haccessors, ⟨line, hline, ?_⟩, hprologue⟩
  rw [hheader, ← hwrapper, ← a.handles_view]
  rfl

theorem exists_yuiLinked
    {r : Rendered}
    (h : transpileFor Target.yui text options = .ok r) :
    ∃ (a : Assembly Target.yui text options) (keys : List String)
      (accessors : List (String × String)), a.Gives r ∧ YuiLinked a keys accessors := by
  obtain ⟨a, hr⟩ := exists_assembly h
  obtain ⟨accessors, haccessors, hprologue⟩ := exportsPrologue_eq_ok a.hprologue
  have hwrapper : Target.yuiWrapper a.view = a.wrapper := Except.ok.inj a.hwrapper
  refine ⟨a, a.keyTexts, accessors, hr, a.linked haccessors, ?_, hprologue⟩
  rw [Assembly.footer, ← hwrapper]
  rfl

theorem exists_systemLinked
    {links : Target.SystemLinks}
    {r : Rendered}
    (h : transpileFor (Target.system links) text options = .ok r) :
    ∃ (a : Assembly (Target.system links) text options) (keys : List String)
      (accessors : List (String × String)), a.Gives r ∧ SystemLinked a keys accessors := by
  obtain ⟨a, hr⟩ := exists_assembly h
  obtain ⟨all, hall, hprologue⟩ := bind_eq_ok.mp a.hprologue
  obtain ⟨accessors, haccessors, hjoin⟩ := bind_eq_ok.mp hall
  obtain ⟨line, hline, hheader⟩ := a.header_eq
  obtain ⟨all', hall', hwrapper⟩ := bind_eq_ok.mp a.hwrapper
  cases hjoin
  have hheader' := congrArg Wrapper.header (Except.ok.inj hwrapper)
  let between :=
    (a.view.format.indentBy 1 ++ "var " ++ moduleVariable ++ " = \x7b\x7d;\n") ++
      (a.view.format.indentBy 1 ++ "return \x7b\n") ++
      (a.view.format.indentBy 2 ++ a.view.quote "exports" ++ ": " ++ moduleVariable ++ ",\n") ++
      (a.view.format.indentBy 2 ++ a.view.quote "bindings" ++ ": [" ++
        a.view.quoteAll (all'.map (·.1)) ++ "],\n")
  refine ⟨a, a.keyTexts, accessors, hr, a.linked haccessors, ⟨line, between, hline, ?_⟩,
    (Except.ok.inj hprologue).symm⟩
  rw [hheader, ← hheader', ← a.handles_view]
  refine congrArg (line ++ ·) ?_
  dsimp only [between]
  simp only [← String.append_assoc]
  rfl

end Transpile
end EsModules
