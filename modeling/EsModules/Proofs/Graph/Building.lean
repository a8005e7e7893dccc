import EsModules.Proofs.Graph.Consistency
import EsModules.Proofs.Graph.ExecutionOrder
import EsModules.Proofs.Graph.Registration

/-!
# Building completed graphs

Where no call has failed, all modules are resolved, and the analysis of each module has found
nothing to refuse.  So only two things keep a module from being written: a blank name and, in the
`system` format, a star export that leads to a module of the host.  `Unwritable` says so of one
module, and the walk along the execution order carries it over to the whole graph.
-/

namespace EsModules
namespace Graph

open Syntax Transpile

variable {g : Graph}

/-- The graphs that calls reach from an empty one if none of them fails. -/
inductive Completed : Graph → Prop where
  | empty (root : String) (files : SourceFiles) (resolvers : List Resolver) :
      Completed (.empty root files resolvers)
  | call
      {g : Graph}
      (h : Completed g)
      (call : Call)
      {id : ModuleId}
      (hok : outcome call.step g = .ok id) :
      Completed (after call.step g)

/-- A call adds modules behind those that are there, and settles them if it succeeds. -/
theorem Call.ends_adds (call : Call) (g : Graph) :
    Ends call.step g fun out g' =>
      ∃ added, g'.modules = g.modules ++ added ∧
        (out.isOk = true → ∀ m ∈ added, m.resolved = true) := by
  cases call with
  | addEntry path =>
      apply Ends.get
      split
      · exact Ends.throw ⟨[], by simp, nofun⟩
      · rename_i file _
        apply (runs_loadLocal g.loadingDepth file g).bind
        · intro e g' hruns
          obtain ⟨added, hadds, hsettled⟩ := hruns.leaves
          exact ⟨added, by rw [hadds.eq], hsettled⟩
        · intro id g' hruns
          obtain ⟨added, hadds, hsettled⟩ := hruns.leaves
          have hmodules : g'.modules = g.modules ++ added := by rw [hadds.eq]
          apply Ends.modify
          apply Ends.pure
          refine ⟨added, ?_, hsettled⟩
          split
          · exact hmodules
          · exact hmodules
  | resolveModule specifier importer =>
      apply (runs_resolveModule specifier importer g).mono
      intro out g' hruns
      obtain ⟨added, hadds, hsettled⟩ := hruns.leaves
      exact ⟨added, by rw [hadds.eq], hsettled⟩

namespace Completed

theorem reached (h : g.Completed) : g.Reached := by
  induction h with
  | empty root files resolvers => exact .empty root files resolvers
  | call _ call _ ih =>
      cases call with
      | addEntry path => exact ih.addEntry path
      | resolveModule specifier importer => exact ih.resolveModule specifier importer

theorem resolved (h : g.Completed) : ∀ m ∈ g.modules, m.resolved = true := by
  induction h with
  | empty root files resolvers => simp [Graph.empty]
  | @call g _ call id hok ih =>
      obtain ⟨added, hmodules, hsettled⟩ := call.ends_adds g
      rw [hok] at hsettled
      rw [hmodules]
      exact List.forall_mem_append.mpr ⟨ih, hsettled rfl⟩

end Completed

/-! ### The modules in execution order -/

/-- The identities that programs are written for are those of the local modules. -/
theorem Reached.exists_localOrder (hg : g.Reached) :
    ∃ order : List GraphModule,
      List.Forall₂ (fun id m => g.module? id = some m)
        (g.executionOrder.filter (!·.isExternal)) order ∧
      order.Nodup ∧
      ∀ m, m ∈ order ↔ g.Required m ∧ m.external = false := by
  obtain ⟨order, hids, hnodup, hmem, -⟩ := hg.coherent.exists_order
  refine ⟨order.filter (!·.external), ?_, hnodup.filter _, ?_⟩
  · refine List.rel_filter ?_ hids
    intro id m hm
    have hm' := mem_of_module? hm
    have hexternal : id.isExternal = m.external := by
      rw [← ModuleId.isExternal_congr (same_of_module? hm)]
      exact (hg.coherent.genuine m hm').isExternal_id (hg.lookedUp m hm')
    show (!id.isExternal) = true ↔ (!m.external) = true
    rw [hexternal]
  · intro m
    rw [List.mem_filter, hmem]
    simp

/-! ### One module -/

/-- What the output of a module requires for one of its sources: a module of the host by its name, a
local one by the path to its output file. -/
def Requires (g : Graph) (m : GraphModule) (source : String) (entry : String × String) : Prop :=
  ∃ b, g.LeadsTo m source b ∧
    entry = (source, if b.external then b.name else relativeRequire m.name b.name)

/-- A resolved module knows what to require for all its sources, in their order. -/
theorem Coherent.requirePaths_eq_ok
    (hg : g.Coherent)
    {m : GraphModule}
    (hm : m ∈ g.modules)
    (hresolved : m.resolved = true) :
    ∃ paths, g.requirePaths m = .ok paths ∧
      List.Forall₂ (g.Requires m) m.catalog.sources paths := by
  have hentry : ∀ source ∈ m.catalog.sources, ∃ b, g.LeadsTo m source b ∧
      (do
        let dependency ← g.requireModule (← requireDependency m source)
        let path :=
          if dependency.external then dependency.name
          else relativeRequire m.name dependency.name
        return (source, path) : Except GraphError (String × String)) =
        .ok (source, if b.external then b.name else relativeRequire m.name b.name) := by
    intro source hsource
    obtain ⟨id, b, hdependency, -, hb⟩ := hg.leadsTo_of_resolved hm hresolved hsource
    refine ⟨b, ⟨id, hdependency, hb⟩, ?_⟩
    rw [requireDependency_eq_ok.mpr hdependency]
    exact bind_eq_ok.mpr ⟨id, rfl, bind_eq_ok.mpr ⟨b, requireModule_eq_ok.mpr hb, rfl⟩⟩
  obtain ⟨paths, hpaths⟩ := mapM_eq_ok fun source hsource =>
    (hentry source hsource).elim fun _ h => ⟨_, h.2⟩
  refine ⟨paths, hpaths, ?_⟩
  have hall := (List.forall₂_and_left _ _).mpr ⟨fun _ hsource => hsource, forall₂_of_mapM hpaths⟩
  refine hall.imp ?_
  rintro source entry ⟨hsource, hok⟩
  obtain ⟨b, hleads, hok'⟩ := hentry source hsource
  cases hok.symm.trans hok'
  exact ⟨b, hleads, rfl⟩

/-- The failure that is reported for a blank name. -/
def blankName : GraphError :=
  .transpile (.missingConfiguration "registryName" "registry name must not be empty")

/-- What keeps a module of a completed graph from being written, with the failure that is
reported. -/
inductive Unwritable (g : Graph) (m : GraphModule) : GraphFormat → GraphError → Prop where
  | blank
      (kind : GraphFormat)
      (hblank : Text.isBlankText m.name = true) :
      Unwritable g m kind blankName
  | hostStar
      {b : GraphModule}
      (hbelow : Relation.TransGen g.StarEdge m b)
      (hexternal : b.external = true) :
      Unwritable g m .system
        (.unsupportedDeclaration m.name s!"export * from external module '{b.name}'")

theorem writable_commonJs_iff {m : GraphModule} :
    (∀ e, ¬g.Unwritable m .commonJs e) ↔ Text.isBlankText m.name = false := by
  constructor
  · intro h
    by_contra hblank
    exact h _ (.blank _ (by simpa using hblank))
  · rintro h e ⟨_, hblank⟩
    rw [h] at hblank
    cases hblank

theorem writable_system_iff {m : GraphModule} :
    (∀ e, ¬g.Unwritable m .system e) ↔
      Text.isBlankText m.name = false ∧
        ∀ b, Relation.TransGen g.StarEdge m b → b.external = false := by
  constructor
  · intro h
    constructor
    · by_contra hblank
      exact h _ (.blank _ (by simpa using hblank))
    · intro b hbelow
      by_contra hexternal
      exact h _ (.hostStar hbelow (by simpa using hexternal))
  · rintro ⟨hname, hstars⟩ e hunwritable
    cases hunwritable with
    | blank _ hblank =>
        rw [hname] at hblank
        cases hblank
    | hostStar hbelow hexternal =>
        rw [hstars _ hbelow] at hexternal
        cases hexternal

section Module

variable {m : GraphModule}

/-- With the options that the graph gives, a module is transpiled unless its name is blank. -/
theorem Coherent.transpileFor_moduleOptions
    (hg : g.Coherent)
    (hm : m ∈ g.modules)
    (hlocal : m.external = false)
    {target : Target}
    (htarget : Total target)
    (format : FormatOptions) :
    ((∃ r, transpileFor target m.text (g.moduleOptions m format) = .ok r) ↔
        Text.isBlankText m.name = false) ∧
      ∀ e, transpileFor target m.text (g.moduleOptions m format) = .error e →
        Text.isBlankText m.name = true ∧
          e = .missingConfiguration "registryName" "registry name must not be empty" := by
  obtain ⟨program, hparse, hbuild⟩ := hg.build_of_local hm hlocal
  have hsettled := settled_transpileFor htarget m.text (g.moduleOptions m format)
  constructor
  · rw [hsettled.ok_iff]
    constructor
    · rintro ⟨⟨name, hregistry, hname⟩, -⟩
      cases hregistry
      exact hname
    · intro hname
      exact ⟨⟨m.name, rfl, hname⟩, program, ⟨hparse, m.catalog, hbuild⟩, .inl rfl⟩
  · intro e he
    cases (hsettled.error_iff e).mp he with
    | unnamed h => cases h
    | blank h hblank =>
        cases h
        exact ⟨hblank, rfl⟩
    | parse _ h => cases hparse.symm.trans h
    | catalog _ hparse' h =>
        cases hparse.symm.trans hparse'
        cases hbuild.symm.trans h
    | directory _ _ h _ => cases h

/-- The target of a module is known unless a star export leads to the host. -/
theorem Completed.targetOf_cases
    (hg : g.Completed)
    (hm : m ∈ g.modules)
    (kind : GraphFormat)
    (format : FormatOptions) :
    (∃ target, g.targetOf m kind format = .ok target ∧ Total target ∧
        (kind = .system → ∀ b, Relation.TransGen g.StarEdge m b → b.external = false)) ∨
      ∃ e, g.targetOf m kind format = .error e ∧ g.Unwritable m kind e := by
  have hcoherent := hg.reached.coherent
  cases kind with
  | commonJs =>
      obtain ⟨paths, hpaths, -⟩ := hcoherent.requirePaths_eq_ok hm (hg.resolved m hm)
      exact .inl ⟨_, bind_eq_ok.mpr ⟨paths, hpaths, rfl⟩, total_commonJs paths, nofun⟩
  | system =>
      obtain ⟨names, hnames, -⟩ := hcoherent.dependencyNames_eq_ok hm (hg.resolved m hm)
      cases hstars : g.starAccessors m format with
      | ok stars =>
          refine .inl ⟨_, ?_, total_system ⟨names, stars⟩, ?_⟩
          · exact bind_eq_ok.mpr ⟨names, hnames, bind_eq_ok.mpr ⟨stars, hstars, rfl⟩⟩
          · intro _ b hbelow
            obtain ⟨c, ⟨source, hsource, hleads⟩, hreach⟩ := Relation.TransGen.head'_iff.mp hbelow
            obtain ⟨c', hleads', hopen⟩ := open_of_starAccessors hstars source hsource
            cases hleads'.unique hleads
            exact (hopen b hreach).1
      | error e =>
          have hlinked : ∀ a ∈ g.modules, ∀ source ∈ a.catalog.stars, ∃ b, g.LeadsTo a source b :=
            fun a ha => hcoherent.leadsTo_of_star hg.reached.closed hg.resolved ha
          obtain ⟨b, hbelow, hexternal, rfl⟩ :=
            starAccessors_eq_error hg.reached.closed hlinked hm hstars
          refine .inr ⟨_, ?_, .hostStar hbelow hexternal⟩
          exact bind_eq_error.mpr (.inr ⟨names, hnames, bind_eq_error.mpr (.inl hstars)⟩)

/-- A local module is written under its name unless something keeps it from that. -/
theorem Completed.formatModule_cases
    (hg : g.Completed)
    {id : ModuleId}
    (hm : g.module? id = some m)
    (hlocal : m.external = false)
    (kind : GraphFormat)
    (format : FormatOptions) :
    (∃ output, g.formatModule kind format id = .ok ⟨id, m.name, output⟩ ∧
        ∀ e, ¬g.Unwritable m kind e) ∨
      ∃ e, g.formatModule kind format id = .error e ∧ g.Unwritable m kind e := by
  have hmem := mem_of_module? hm
  have hmodule := requireModule_eq_ok.mpr hm
  rcases hg.targetOf_cases hmem kind format with
    ⟨target, htarget, htotal, hstars⟩ | ⟨e, herror, hunwritable⟩
  · obtain ⟨hok, hfail⟩ :=
      hg.reached.coherent.transpileFor_moduleOptions hmem hlocal htotal format
    cases hrun : transpileFor target m.text (g.moduleOptions m format) with
    | ok output =>
        refine .inl ⟨output, ?_, ?_⟩
        · refine bind_eq_ok.mpr ⟨m, hmodule, bind_eq_ok.mpr ⟨target, htarget, ?_⟩⟩
          rw [hrun]
          rfl
        · intro e hunwritable
          cases hunwritable with
          | blank _ hblank =>
              rw [hok.mp ⟨output, hrun⟩] at hblank
              cases hblank
          | hostStar hbelow hexternal =>
              rw [hstars rfl _ hbelow] at hexternal
              cases hexternal
    | error e =>
        obtain ⟨hblank, rfl⟩ := hfail e hrun
        refine .inr ⟨_, ?_, .blank kind hblank⟩
        refine bind_eq_error.mpr (.inr ⟨m, hmodule, bind_eq_error.mpr (.inr ⟨target, htarget, ?_⟩)⟩)
        rw [hrun]
        rfl
  · refine .inr ⟨e, ?_, hunwritable⟩
    exact bind_eq_error.mpr (.inr ⟨m, hmodule, bind_eq_error.mpr (.inl herror)⟩)

end Module

/-! ### The whole graph -/

/-- A program is that of a module. -/
def ProgramOf (g : Graph) (p : OutputProgram) (m : GraphModule) : Prop :=
  g.module? p.id = some m ∧ p.name = m.name

/-- Modules are written one by one, up to the first that something keeps from it. -/
theorem Completed.mapM_formatModule_cases
    (hg : g.Completed)
    (kind : GraphFormat)
    (format : FormatOptions)
    {ids : List ModuleId}
    {order : List GraphModule}
    (hids : List.Forall₂ (fun id m => g.module? id = some m) ids order)
    (hlocal : ∀ m ∈ order, m.external = false) :
    (∃ programs,
        ids.mapM (g.formatModule kind format) = .ok programs ∧
        programs.map (·.id) = ids ∧
        List.Forall₂ g.ProgramOf programs order ∧
        ∀ m ∈ order, ∀ e, ¬g.Unwritable m kind e) ∨
      ∃ m ∈ order, ∃ e,
        ids.mapM (g.formatModule kind format) = .error e ∧ g.Unwritable m kind e := by
  induction hids with
  | nil => exact .inl ⟨[], rfl, rfl, .nil, by simp⟩
  | @cons id m ids order hm _ ih =>
      obtain ⟨hfirst, hrest⟩ := List.forall_mem_cons.mp hlocal
      rw [List.mapM_cons]
      rcases hg.formatModule_cases hm hfirst kind format with
        ⟨output, hok, hwritable⟩ | ⟨e, herror, hunwritable⟩
      · rcases ih hrest with
          ⟨programs, hprograms, hmap, hforall, hothers⟩ | ⟨a, ha, e, herror, hunwritable⟩
        · refine .inl ⟨⟨id, m.name, output⟩ :: programs, ?_, ?_, .cons ⟨hm, rfl⟩ hforall, ?_⟩
          · exact bind_eq_ok.mpr ⟨_, hok, bind_eq_ok.mpr ⟨programs, hprograms, rfl⟩⟩
          · rw [List.map_cons, hmap]
          · exact List.forall_mem_cons.mpr ⟨hwritable, hothers⟩
        · refine .inr ⟨a, List.mem_cons_of_mem _ ha, e, ?_, hunwritable⟩
          exact bind_eq_error.mpr (.inr ⟨_, hok, bind_eq_error.mpr (.inl herror)⟩)
      · exact .inr ⟨m, List.mem_cons_self, e, bind_eq_error.mpr (.inl herror), hunwritable⟩

/-- The programs of a graph: one for each local module that is reached from the entries, in
execution order and under the name of the module. -/
structure Built (g : Graph) (programs : List OutputProgram) : Prop where
  ids : programs.map (·.id) = g.executionOrder.filter (!·.isExternal)
  modules :
    ∃ order : List GraphModule,
      order.Nodup ∧
      (∀ m, m ∈ order ↔ g.Required m ∧ m.external = false) ∧
      List.Forall₂ g.ProgramOf programs order

/-- A graph is built unless something keeps one of its modules from being written. -/
theorem Completed.build_cases
    (hg : g.Completed)
    (kind : GraphFormat)
    (format : FormatOptions) :
    (∃ programs, g.build kind format = .ok programs ∧ g.Built programs ∧
        ∀ m, g.Required m → m.external = false → ∀ e, ¬g.Unwritable m kind e) ∨
      ∃ m e, g.build kind format = .error e ∧
        g.Required m ∧ m.external = false ∧ g.Unwritable m kind e := by
  obtain ⟨order, hids, hnodup, hmem⟩ := hg.reached.exists_localOrder
  rcases hg.mapM_formatModule_cases kind format hids fun m hm => ((hmem m).mp hm).2 with
    ⟨programs, hok, hmap, hforall, hwritable⟩ | ⟨m, hm, e, herror, hunwritable⟩
  · refine .inl ⟨programs, hok, ⟨hmap, order, hnodup, hmem, hforall⟩, ?_⟩
    intro m hrequired hlocal
    exact hwritable m ((hmem m).mpr ⟨hrequired, hlocal⟩)
  · obtain ⟨hrequired, hlocal⟩ := (hmem m).mp hm
    exact .inr ⟨m, e, herror, hrequired, hlocal, hunwritable⟩

theorem Completed.build_eq_ok_iff
    (hg : g.Completed)
    (kind : GraphFormat)
    (format : FormatOptions) :
    (∃ programs, g.build kind format = .ok programs) ↔
      ∀ m, g.Required m → m.external = false → ∀ e, ¬g.Unwritable m kind e := by
  rcases hg.build_cases kind format with
    ⟨programs, hok, -, hwritable⟩ | ⟨m, e, herror, hrequired, hlocal, hunwritable⟩
  · exact iff_of_true ⟨programs, hok⟩ hwritable
  · refine iff_of_false ?_ fun h => h m hrequired hlocal e hunwritable
    rintro ⟨programs, hok⟩
    cases hok.symm.trans herror

theorem Completed.unwritable_of_build
    (hg : g.Completed)
    {kind : GraphFormat}
    {format : FormatOptions}
    {e : GraphError}
    (h : g.build kind format = .error e) :
    ∃ m, g.Required m ∧ m.external = false ∧ g.Unwritable m kind e := by
  rcases hg.build_cases kind format with
    ⟨programs, hok, -, -⟩ | ⟨m, e', herror, hrequired, hlocal, hunwritable⟩
  · cases hok.symm.trans h
  · cases herror.symm.trans h
    exact ⟨m, hrequired, hlocal, hunwritable⟩

theorem Completed.built_of_build
    (hg : g.Completed)
    {kind : GraphFormat}
    {format : FormatOptions}
    {programs : List OutputProgram}
    (h : g.build kind format = .ok programs) :
    g.Built programs := by
  rcases hg.build_cases kind format with ⟨programs', hok, hbuilt, -⟩ | ⟨m, e, herror, -⟩
  · cases hok.symm.trans h
    exact hbuilt
  · cases herror.symm.trans h

/-- A graph whose calls all succeeded is built if no local module that is reached has a blank name
and, in the `system` format, none of them has a star export that leads to a module of the host.
Nothing else is ever reported, and the programs are those of the local modules. -/
theorem build_of_completed
    (g : Graph)
    (hg : g.Completed)
    (format : FormatOptions) :
    ((∃ programs, g.build .commonJs format = .ok programs) ↔
        ∀ m, g.Required m → m.external = false → Text.isBlankText m.name = false) ∧
      (∀ e, g.build .commonJs format = .error e → e = blankName) ∧
      ((∃ programs, g.build .system format = .ok programs) ↔
        ∀ m, g.Required m → m.external = false →
          Text.isBlankText m.name = false ∧
            ∀ b, Relation.TransGen g.StarEdge m b → b.external = false) ∧
      (∀ e, g.build .system format = .error e →
        e = blankName ∨
          ∃ m b, g.Required m ∧ m.external = false ∧
            Relation.TransGen g.StarEdge m b ∧ b.external = true ∧
            e = .unsupportedDeclaration m.name s!"export * from external module '{b.name}'") ∧
      ∀ kind programs, g.build kind format = .ok programs → g.Built programs := by
  refine ⟨?_, ?_, ?_, ?_, fun kind programs => hg.built_of_build⟩
  · rw [hg.build_eq_ok_iff]
    simp only [writable_commonJs_iff]
  · intro e herror
    obtain ⟨m, -, -, ⟨_, hblank⟩⟩ := hg.unwritable_of_build herror
    rfl
  · rw [hg.build_eq_ok_iff]
    simp only [writable_system_iff]
  · intro e herror
    obtain ⟨m, hrequired, hlocal, hunwritable⟩ := hg.unwritable_of_build herror
    cases hunwritable with
    | blank _ hblank => exact .inl rfl
    | @hostStar b hbelow hexternal =>
        exact .inr ⟨m, b, hrequired, hlocal, hbelow, hexternal, rfl⟩

theorem completed_hostStar : hostStar.Completed := by
  have hok : outcome (Call.addEntry "m").step
      (.empty "/p"
        (.ofTexts
          [("/p/m.js", "export * from './a';\n"),
            ("/p/a.js", "export * from './m';\nexport * from 'host';\n")])
        (Resolver.defaults ["host"])) = .ok ⟨"/p/m.js"⟩ := by
    decide +kernel
  exact Completed.call (.empty _ _ _) (.addEntry "m") hok

/-- Two modules that export all names of each other and of the host are built in one format, and
refused in the other. -/
theorem build_of_completed_hostStar :
    (∃ programs, hostStar.build .commonJs {} = .ok programs ∧
        programs.map (fun p => (p.id, p.name)) = [(⟨"/p/a.js"⟩, "a"), (⟨"/p/m.js"⟩, "m")] ∧
        hostStar.Built programs) ∧
      ∃ e, hostStar.build .system {} = .error e ∧
        ∃ m b, hostStar.Required m ∧ m.external = false ∧
          Relation.TransGen hostStar.StarEdge m b ∧ b.external = true ∧
          e = .unsupportedDeclaration m.name s!"export * from external module '{b.name}'" := by
  have hfacts :
      (hostStar.build .commonJs {}).toOption.map (·.map fun p => (p.id, p.name)) =
          some [(⟨"/p/a.js"⟩, "a"), (⟨"/p/m.js"⟩, "m")] ∧
        (hostStar.build .system {}).map (fun _ => ()) =
          .error (.unsupportedDeclaration "a" "export * from external module 'host'") := by
    simp +unfoldPartialApp only [Graph.build, Graph.formatModule, transpileFor_eq]
    decide +kernel
  obtain ⟨hcommonJs, hsystem⟩ := hfacts
  obtain ⟨-, -, -, hrefused, hbuilt⟩ := build_of_completed hostStar completed_hostStar {}
  obtain ⟨programs, hok, hprograms⟩ := ok_of_toOption_map hcommonJs
  refine ⟨⟨programs, hok, hprograms, hbuilt _ _ hok⟩, ?_⟩
  cases herror : hostStar.build .system {} with
  | ok programs =>
      rw [herror] at hsystem
      cases hsystem
  | error e =>
      rw [herror] at hsystem
      cases hsystem
      exact ⟨_, rfl, (hrefused _ herror).resolve_left (by simp [blankName])⟩

end Graph
end EsModules
