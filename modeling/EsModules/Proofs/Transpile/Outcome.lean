import EsModules.Proofs.SourceMap.Fidelity
import EsModules.Proofs.Transpile.Edits
import EsModules.Target.CommonJs
import EsModules.Target.System

/-!
# When a module can be transpiled

`Transpilable` lists what a transpilation needs of a module and its options, and `Obstacle` the
first of these that is missing, with the failure that is reported for it.  A transpilation succeeds
exactly for the former and fails exactly as the latter says, for every target: once the catalog is
built, the handles and keys of all sources are known and the edits fit together.
-/

namespace EsModules
namespace Transpile

open Syntax

/-- The file that failures and source maps name. -/
def sourceFile (options : TranspileOptions) (name : String) : String :=
  options.format.sourceFileName.getD (basename name ++ ".js")

/-- The module has a registry name that is not blank. -/
def Named (options : TranspileOptions) (name : String) : Prop :=
  options.registryName = some name ∧ Text.isBlankText name = false

/-- The text is a module with a catalog. -/
def Catalogued (text : String) (program : Program) : Prop :=
  Program.parse text = .ok program ∧ ∃ catalog, Catalog.build text program = .ok catalog

/-- Nothing keeps the module from being transpiled. -/
structure Transpilable (text : String) (options : TranspileOptions) : Prop where
  named : ∃ name, Named options name
  located :
    ∃ program, Catalogued text program ∧
      (options.dirPath.isSome = true ∨
        ∀ item ∈ program.items, ∀ source, item.source? = some source →
          Path.isRelative source = false)

/-- The first thing that keeps a module from being transpiled. -/
inductive Obstacle (text : String) (options : TranspileOptions) : TranspileError → Prop where
  | unnamed
      (h : options.registryName = none) :
      Obstacle text options
        (.missingConfiguration "registryName" "a registry name is required to register the module")
  | blank
      {name : String}
      (h : options.registryName = some name)
      (hblank : Text.isBlankText name = true) :
      Obstacle text options
        (.missingConfiguration "registryName" "registry name must not be empty")
  | parse
      {name : String}
      {fault : Fault}
      (hname : Named options name)
      (h : Program.parse text = .error fault) :
      Obstacle text options (.parse (sourceFile options name))
  | catalog
      {name : String}
      {program : Program}
      {e : TranspileError}
      (hname : Named options name)
      (hparse : Program.parse text = .ok program)
      (h : Catalog.build text program = .error e) :
      Obstacle text options e
  | directory
      {name : String}
      {program : Program}
      {source : String}
      (hname : Named options name)
      (hprogram : Catalogued text program)
      (hdir : options.dirPath = none)
      (h : (Catalog.namedSources program).find? Path.isRelative = some source) :
      Obstacle text options
        (.missingConfiguration "dirPath"
          s!"can't resolve relative path '{source}' without being passed a dirPath")

/-- A module can be transpiled or something keeps it from that. -/
theorem transpilable_or_obstacle (text : String) (options : TranspileOptions) :
    Transpilable text options ∨ ∃ e, Obstacle text options e := by
  cases hregistry : options.registryName with
  | none => exact .inr ⟨_, .unnamed hregistry⟩
  | some name =>
      cases hblank : Text.isBlankText name with
      | true => exact .inr ⟨_, .blank hregistry hblank⟩
      | false =>
          have hname : Named options name := ⟨hregistry, hblank⟩
          cases hparse : Program.parse text with
          | error fault => exact .inr ⟨_, .parse hname hparse⟩
          | ok program =>
              cases hbuild : Catalog.build text program with
              | error e => exact .inr ⟨e, .catalog hname hparse hbuild⟩
              | ok catalog =>
                  have hprogram : Catalogued text program := ⟨hparse, catalog, hbuild⟩
                  cases hdir : options.dirPath with
                  | some directory =>
                      exact .inl ⟨⟨name, hname⟩, program, hprogram, .inl (by rw [hdir]; rfl)⟩
                  | none =>
                      cases hfind : (Catalog.namedSources program).find? Path.isRelative with
                      | some source => exact .inr ⟨_, .directory hname hprogram hdir hfind⟩
                      | none =>
                          refine .inl ⟨⟨name, hname⟩, program, hprogram, .inr ?_⟩
                          intro item hitem source hsource
                          have hnot := List.find?_eq_none.mp hfind source
                            (List.mem_filterMap.mpr ⟨item, hitem, hsource⟩)
                          simpa using hnot

/-! ### Options -/

theorem exists_bind
    {α β ε : Type}
    {x : Except ε α}
    {f : α → Except ε β}
    {a : α}
    (hx : x = .ok a)
    (hf : ∃ b, f a = .ok b) :
    ∃ b, x >>= f = .ok b :=
  hf.imp fun _ hb => bind_eq_ok.mpr ⟨a, hx, hb⟩

theorem exists_bind_and
    {α β ε : Type}
    {x : Except ε α}
    {f : α → Except ε β}
    {p : β → Prop}
    {a : α}
    (hx : x = .ok a)
    (hf : ∃ b, f a = .ok b ∧ p b) :
    ∃ b, x >>= f = .ok b ∧ p b :=
  hf.imp fun _ hb => ⟨bind_eq_ok.mpr ⟨a, hx, hb.1⟩, hb.2⟩

theorem requireRegistryName_eq_ok
    {options : TranspileOptions}
    {name : String}
    (h : Named options name) :
    options.requireRegistryName = .ok name := by
  simp [TranspileOptions.requireRegistryName, h.1, h.2]

theorem registryKey_eq_ok
    {options : TranspileOptions}
    {source : String}
    (h : options.dirPath.isSome = true ∨ Path.isRelative source = false) :
    ∃ key, options.registryKey source = .ok key := by
  unfold TranspileOptions.registryKey
  split
  · exact ⟨_, rfl⟩
  · rename_i hrelative
    cases hdir : options.dirPath with
    | some directory => exact ⟨_, rfl⟩
    | none =>
        rw [hdir] at h
        simp_all

/-- Every source has a key if the directory is known or no source needs it. -/
theorem registryKeys_eq_ok
    {options : TranspileOptions}
    {sources : List String}
    (h : ∀ source ∈ sources, options.dirPath.isSome = true ∨ Path.isRelative source = false) :
    ∃ keys, options.registryKeys sources = .ok keys ∧ keys.map (·.1) = sources := by
  induction sources with
  | nil => exact ⟨[], rfl, rfl⟩
  | cons source sources ih =>
      obtain ⟨key, hkey⟩ := registryKey_eq_ok (h source (by simp))
      obtain ⟨keys, hkeys, hfirst⟩ := ih fun other hother => h other (by simp [hother])
      refine ⟨(source, key) :: keys, ?_, by simp [hfirst]⟩
      unfold TranspileOptions.registryKeys at hkeys ⊢
      rw [List.mapM_cons, hkey]
      exact bind_eq_ok.mpr ⟨_, rfl, bind_eq_ok.mpr ⟨keys, hkeys, rfl⟩⟩

/-- Without a directory, the first relative source has no key. -/
theorem registryKeys_eq_error
    {options : TranspileOptions}
    {sources : List String}
    {source : String}
    (hdir : options.dirPath = none)
    (h : sources.find? Path.isRelative = some source) :
    options.registryKeys sources =
      .error (.missingConfiguration "dirPath"
        s!"can't resolve relative path '{source}' without being passed a dirPath") := by
  induction sources with
  | nil => cases h
  | cons first sources ih =>
      unfold TranspileOptions.registryKeys at ih ⊢
      rw [List.mapM_cons]
      rw [List.find?_cons] at h
      cases hrelative : Path.isRelative first with
      | true =>
          rw [hrelative] at h
          cases h
          simp only [TranspileOptions.registryKey, hrelative, hdir]
          rfl
      | false =>
          rw [hrelative] at h
          have hkey : options.registryKey first = .ok first := by
            simp [TranspileOptions.registryKey, hrelative]
          rw [hkey, ih h]
          rfl

theorem find?_keys
    {keys : List (String × String)}
    {source : String}
    (h : source ∈ keys.map (·.1)) :
    ∃ key, keys.find? (·.1 == source) = some key := by
  obtain ⟨key, hkey, rfl⟩ := List.mem_map.mp h
  exact Option.isSome_iff_exists.mp (List.find?_isSome.mpr ⟨key, hkey, by simp⟩)

/-! ### Targets -/

theorem exportValue_eq_ok
    {view : ModuleView}
    (hclosed : view.catalog.Closed)
    {e : ExportEntry}
    (he : e ∈ view.catalog.exports) :
    ∃ value, view.exportValue e.binding = .ok value := by
  cases hbinding : e.binding with
  | own name => exact ⟨name, rfl⟩
  | reExport source kind =>
      have hsource := hclosed.exports e he source kind hbinding
      obtain ⟨handle, -, hhandle⟩ := requireHandle_of_mem hsource
      exact exists_bind hhandle ⟨_, rfl⟩

theorem mapM_eq_ok
    {α β ε : Type}
    {f : α → Except ε β}
    {l : List α}
    (h : ∀ a ∈ l, ∃ b, f a = .ok b) :
    ∃ bs, l.mapM f = .ok bs := by
  induction l with
  | nil => exact ⟨[], rfl⟩
  | cons a l ih =>
      obtain ⟨b, hb⟩ := h a (by simp)
      obtain ⟨bs, hbs⟩ := ih fun a' ha' => h a' (by simp [ha'])
      rw [List.mapM_cons]
      exact ⟨b :: bs, bind_eq_ok.mpr ⟨b, hb, bind_eq_ok.mpr ⟨bs, hbs, rfl⟩⟩⟩

theorem exportAccessors_eq_ok
    {view : ModuleView}
    (hclosed : view.catalog.Closed) :
    ∃ accessors, view.exportAccessors = .ok accessors := by
  refine mapM_eq_ok fun e he => ?_
  obtain ⟨value, hvalue⟩ := exportValue_eq_ok hclosed he
  exact exists_bind hvalue ⟨_, rfl⟩

/-- The target has code for every module whose catalog is closed. -/
structure Total (target : Target) : Prop where
  prologue : ∀ view : ModuleView, view.catalog.Closed → ∃ text, target.prologue view = .ok text
  wrap : ∀ view : ModuleView, view.catalog.Closed → ∃ wrapper, target.wrap view = .ok wrapper

theorem moduleGetters_eq_ok
    {view : ModuleView}
    (hclosed : view.catalog.Closed) :
    ∃ text, moduleGetters view = .ok text := by
  obtain ⟨accessors, h⟩ := exportAccessors_eq_ok hclosed
  exact exists_bind h ⟨_, rfl⟩

theorem cjsPrologue_eq_ok
    {view : ModuleView}
    (hclosed : view.catalog.Closed) :
    ∃ text, Target.cjsPrologue view = .ok text := by
  obtain ⟨getters, h⟩ := moduleGetters_eq_ok hclosed
  exact exists_bind h ⟨_, rfl⟩

theorem total_targetNamed
    {name : String}
    {target : Target}
    (h : targetNamed name = .ok target) :
    Total target := by
  have hexports : ∀ view : ModuleView, view.catalog.Closed →
      ∃ text, Target.exportsPrologue view = .ok text := by
    intro view hclosed
    obtain ⟨getters, hgetters⟩ := moduleGetters_eq_ok hclosed
    exact exists_bind hgetters ⟨_, rfl⟩
  unfold targetNamed at h
  split at h
  · cases h
    exact ⟨fun _ => cjsPrologue_eq_ok, fun _ _ => ⟨_, rfl⟩⟩
  · cases h
    exact ⟨hexports, fun _ _ => ⟨_, rfl⟩⟩
  · cases h
    exact ⟨fun _ => cjsPrologue_eq_ok, fun _ _ => ⟨_, rfl⟩⟩
  · cases h
    exact ⟨fun _ => cjsPrologue_eq_ok, fun _ _ => ⟨_, rfl⟩⟩
  · cases h
    exact ⟨hexports, fun _ _ => ⟨_, rfl⟩⟩
  · cases h

theorem total_commonJs (paths : List (String × String)) : Total (Target.commonJs paths) where
  prologue := by
    intro view hclosed
    obtain ⟨getters, h⟩ := moduleGetters_eq_ok hclosed
    exact exists_bind h ⟨_, rfl⟩
  wrap := fun _ _ => ⟨_, rfl⟩

theorem total_system (links : Target.SystemLinks) : Total (Target.system links) := by
  have haccessors : ∀ view : ModuleView, view.catalog.Closed →
      ∃ accessors, Target.systemAccessors links view = .ok accessors := by
    intro view hclosed
    obtain ⟨accessors, h⟩ := exportAccessors_eq_ok hclosed
    exact exists_bind h ⟨_, rfl⟩
  constructor
  · intro view hclosed
    obtain ⟨accessors, h⟩ := haccessors view hclosed
    exact exists_bind h ⟨_, rfl⟩
  · intro view hclosed
    obtain ⟨accessors, h⟩ := haccessors view hclosed
    exact exists_bind h ⟨_, rfl⟩

/-! ### Outcomes -/

/-- Once the sources have keys, nothing fails, and the edits can be applied together. -/
theorem draftAs_eq_ok
    {target : Target}
    (htarget : Total target)
    {text : String}
    {options : TranspileOptions}
    {program : Program}
    {catalog : Catalog}
    {keys : List (String × String)}
    (hparse : Program.parse text = .ok program)
    (hbuild : Catalog.build text program = .ok catalog)
    (hkeys : options.registryKeys catalog.sources = .ok keys)
    (hfirst : keys.map (·.1) = catalog.sources)
    (name : String) :
    ∃ draft, draftAs target text options name = .ok draft ∧
      Edit.Applicable text.toList draft.edits := by
  have hcovers := Catalog.covers_build hbuild
  obtain ⟨first, middle, last, hlaid⟩ := Program.laidOut_of_parse hparse
  let view : ModuleView := ⟨name, options, catalog, keys⟩
  have hready : Ready view := ⟨hcovers.closed, fun source hsource => find?_keys (hfirst ▸ hsource)⟩
  obtain ⟨declarations, hdeclarations, hfits⟩ :=
    declarationEdits_eq_ok hready hlaid.items
      (fun item hitem _ hsource => hcovers.mem_sources_iff.mpr ⟨item, hitem, hsource⟩) target []
  have hreferences := referenceEdits_eq hready.closed (ScopeTable.build_references program)
  obtain ⟨prologue, hprologue⟩ := htarget.prologue view hcovers.closed
  obtain ⟨wrapper, hwrapper⟩ := htarget.wrap view hcovers.closed
  have happlicable := applicable_edits hlaid prologue wrapper.header hfits
    (sublist_spans_renamings program view program.occurrences)
  have hmodule : ∀ file, parseModule file text = .ok program := by
    intro file
    simp [parseModule, hparse]
  refine exists_bind_and (hmodule _) (exists_bind_and hbuild (exists_bind_and hkeys ?_))
  refine exists_bind_and hdeclarations (exists_bind_and hreferences ?_)
  exact exists_bind_and hprologue (exists_bind_and hwrapper ⟨_, rfl, happlicable⟩)

/-- What a module is transpiled to, found without reading its source map back. -/
theorem transpileFor_eq (target : Target) (text : String) (options : TranspileOptions) :
    transpileFor target text options = (do
      let draft ← draftAs target text options (← options.requireRegistryName)
      (editPieces text draft.edits).map
        (Rendered.ofPieces text draft.header draft.footer draft.source (some draft.file))) := by
  simp only [transpileFor, Draft.render, Rendered.ofEdits_eq]

/-- A module that can be transpiled is transpiled. -/
theorem transpileFor_eq_ok
    {target : Target}
    (htarget : Total target)
    {text : String}
    {options : TranspileOptions}
    (h : Transpilable text options) :
    ∃ rendered, transpileFor target text options = .ok rendered := by
  obtain ⟨⟨name, hname⟩, program, ⟨hparse, catalog, hbuild⟩, hlocated⟩ := h
  have hcovers := Catalog.covers_build hbuild
  have hsources : ∀ source ∈ catalog.sources,
      options.dirPath.isSome = true ∨ Path.isRelative source = false := by
    intro source hsource
    refine hlocated.imp_right fun hnone => ?_
    obtain ⟨item, hitem, hnames⟩ := hcovers.mem_sources_iff.mp hsource
    exact hnone item hitem source hnames
  obtain ⟨keys, hkeys, hfirst⟩ := registryKeys_eq_ok hsources
  obtain ⟨draft, hdraft, happlicable⟩ :=
    draftAs_eq_ok htarget hparse hbuild hkeys hfirst name
  exact exists_bind (requireRegistryName_eq_ok hname)
    (exists_bind hdraft ⟨_, Rendered.ofEdits_eq_ok happlicable _ _ _ _⟩)

/-- A failure while the draft is made is the outcome. -/
theorem transpileFor_eq_error_of_draftAs
    {target : Target}
    {text name : String}
    {options : TranspileOptions}
    {e : TranspileError}
    (hname : Named options name)
    (h : draftAs target text options name = .error e) :
    transpileFor target text options = .error e := by
  rw [transpileFor, requireRegistryName_eq_ok hname]
  change draftAs target text options name >>= _ = _
  rw [h]
  rfl

/-- The first obstacle is what is reported. -/
theorem transpileFor_eq_error
    (target : Target)
    {text : String}
    {options : TranspileOptions}
    {e : TranspileError}
    (h : Obstacle text options e) :
    transpileFor target text options = .error e := by
  cases h with
  | unnamed h =>
      simp only [transpileFor, TranspileOptions.requireRegistryName, h]
      rfl
  | blank h hblank =>
      simp only [transpileFor, TranspileOptions.requireRegistryName, h, hblank]
      rfl
  | parse hname h =>
      apply transpileFor_eq_error_of_draftAs hname
      simp only [draftAs, parseModule, h]
      rfl
  | catalog hname hparse h =>
      apply transpileFor_eq_error_of_draftAs hname
      simp only [draftAs, parseModule, hparse]
      change Catalog.build text _ >>= _ = _
      rw [h]
      rfl
  | directory hname hprogram hdir h =>
      obtain ⟨hparse, catalog, hbuild⟩ := hprogram
      apply transpileFor_eq_error_of_draftAs hname
      simp only [draftAs, parseModule, hparse]
      change Catalog.build text _ >>= _ = _
      rw [hbuild]
      change options.registryKeys catalog.sources >>= _ = _
      rw [registryKeys_eq_error hdir (((Catalog.covers_build hbuild).find? _).trans h)]
      rfl

/-- The outcome of a transpilation depends on the module and its options only. -/
structure Settled
    (text : String)
    (options : TranspileOptions)
    (outcome : Except TranspileError Rendered) :
    Prop where
  ok_iff : (∃ rendered, outcome = .ok rendered) ↔ Transpilable text options
  error_iff : ∀ e, outcome = .error e ↔ Obstacle text options e

theorem settled_transpileFor
    {target : Target}
    (htarget : Total target)
    (text : String)
    (options : TranspileOptions) :
    Settled text options (transpileFor target text options) := by
  constructor
  · refine ⟨?_, transpileFor_eq_ok htarget⟩
    rintro ⟨rendered, hok⟩
    obtain h | ⟨e, h⟩ := transpilable_or_obstacle text options
    · exact h
    · cases hok.symm.trans (transpileFor_eq_error target h)
  · refine fun e => ⟨?_, transpileFor_eq_error target⟩
    intro herror
    obtain h | ⟨e', h⟩ := transpilable_or_obstacle text options
    · obtain ⟨rendered, hok⟩ := transpileFor_eq_ok htarget h
      cases hok.symm.trans herror
    · cases (transpileFor_eq_error target h).symm.trans herror
      exact h

/-- Nothing but a missing option keeps a module with a catalog from being transpiled. -/
theorem Obstacle.missingConfiguration
    {text : String}
    {options : TranspileOptions}
    {e : TranspileError}
    (h : Obstacle text options e)
    {program : Program}
    (hprogram : Catalogued text program) :
    ∃ option reason, e = .missingConfiguration option reason := by
  obtain ⟨hparse, catalog, hbuild⟩ := hprogram
  cases h with
  | unnamed => exact ⟨_, _, rfl⟩
  | blank => exact ⟨_, _, rfl⟩
  | parse _ h => cases hparse.symm.trans h
  | catalog _ hparse' h =>
      cases hparse.symm.trans hparse'
      cases hbuild.symm.trans h
  | directory => exact ⟨_, _, rfl⟩

/-- The names of the per-module targets. -/
def targetNames : List String :=
  ["cjs", "amd", "amd-cjs", "amdWrappedCjs", "yui"]

theorem transpile_of_targetNamed
    {name : String}
    {target : Target}
    (h : targetNamed name = .ok target)
    (text : String)
    (options : TranspileOptions) :
    transpile name text options = transpileFor target text options := by
  rw [transpile, h]
  rfl

theorem transpile_of_mem
    {name : String}
    (h : name ∈ targetNames)
    (text : String)
    (options : TranspileOptions) :
    Settled text options (transpile name text options) := by
  have htarget : ∃ target, targetNamed name = .ok target := by
    simp only [targetNames, List.mem_cons, List.not_mem_nil, or_false] at h
    obtain rfl | rfl | rfl | rfl | rfl := h <;> exact ⟨_, rfl⟩
  obtain ⟨target, htarget⟩ := htarget
  rw [transpile_of_targetNamed htarget]
  exact settled_transpileFor (total_targetNamed htarget) text options

theorem transpile_of_not_mem
    {name : String}
    (h : name ∉ targetNames)
    (text : String)
    (options : TranspileOptions) :
    transpile name text options = .error (.unknownTarget name) := by
  have htarget : targetNamed name = .error (.unknownTarget name) := by
    unfold targetNamed
    split <;> simp_all [targetNames]
  rw [transpile, htarget]
  rfl

/-- A transpilation succeeds if and only if its target is known and nothing keeps the module from
being transpiled; otherwise the first obstacle is reported.  Behind the catalog only a missing
option can be one, for the targets of the module graph too. -/
theorem transpile_outcome
    (targetName text : String)
    (options : TranspileOptions) :
    ((∃ rendered, transpile targetName text options = .ok rendered) ↔
        targetName ∈ targetNames ∧ Transpilable text options) ∧
      (∀ e, transpile targetName text options = .error e ↔
        targetName ∉ targetNames ∧ e = .unknownTarget targetName ∨
          targetName ∈ targetNames ∧ Obstacle text options e) ∧
      (∀ links, Settled text options (transpileFor (Target.system links) text options)) ∧
      (∀ paths, Settled text options (transpileFor (Target.commonJs paths) text options)) ∧
      ∀ program, Catalogued text program → ∀ e, Obstacle text options e →
        ∃ option reason, e = .missingConfiguration option reason := by
  refine ⟨?_, ?_, fun links => settled_transpileFor (total_system links) text options,
    fun paths => settled_transpileFor (total_commonJs paths) text options,
    fun program hprogram e h => h.missingConfiguration hprogram⟩
  · by_cases hname : targetName ∈ targetNames
    · simpa [hname] using (transpile_of_mem hname text options).ok_iff
    · simp [transpile_of_not_mem hname, hname]
  · by_cases hname : targetName ∈ targetNames
    · simpa [hname] using (transpile_of_mem hname text options).error_iff
    · simp [transpile_of_not_mem hname, hname, eq_comm]

end Transpile
end EsModules
