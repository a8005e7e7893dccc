import EsModules.Proofs.Graph.PublishedNames
import EsModules.Proofs.Transpile.Handles

/-!
# Registered dependencies

A module of the `system` format lists its dependencies by the names under which they are
registered.  The list is made from the graph, and the handles from the text of the module; both
follow the sources of the module in the order of their first mention, so the handle with the number
`i` is given the module that the source with this number stands for.
-/

namespace EsModules
namespace Graph

open Syntax Transpile

variable {g : Graph}

/-- An import of a module stands for a module that is registered under a name. -/
def Registers (g : Graph) (m : GraphModule) (source name : String) : Prop :=
  ∃ id b, g.target? m.id source = some id ∧ g.module? id = some b ∧ b.name = name

/-- The getter for a name that comes through `export *` reads it on the handle with the number of
its source. -/
def StarGetter (program : Program) (format : FormatOptions) (accessor : String × String) : Prop :=
  ∃ (i : Nat) (source : String),
    program.distinctSources[i]? = some source ∧
      (∃ item ∈ program.items, item.IsStar source) ∧
      accessor.2 = accessExpression (Catalog.handleName i) (.named accessor.1) format

/-- The catalog of a local module is that of its text. -/
theorem Coherent.build_of_local
    (hg : g.Coherent)
    {m : GraphModule}
    (hm : m ∈ g.modules)
    (hlocal : m.external = false) :
    ∃ program,
      Program.parse m.text = .ok program ∧ Catalog.build m.text program = .ok m.catalog := by
  cases hg.genuine m hm with
  | external name => cases hlocal
  | loaded hid hread hsources htargets hdone =>
      obtain ⟨name, text, catalog, -, -, hanalyze, rfl⟩ := readModule_eq_ok hread
      obtain ⟨program, hmodule, hbuild⟩ := bind_eq_ok.mp hanalyze
      exact ⟨program, parse_of_parseModule hmodule, hbuild⟩

/-- A resolved module knows the registration names of all its sources, in their order. -/
theorem Coherent.dependencyNames_eq_ok
    (hg : g.Coherent)
    {m : GraphModule}
    (hm : m ∈ g.modules)
    (hresolved : m.resolved = true) :
    ∃ names, g.dependencyNames m = .ok names ∧
      List.Forall₂ (g.Registers m) m.catalog.sources names := by
  have hname : ∀ source ∈ m.catalog.sources, ∃ name,
      (do return (← g.requireModule (← requireDependency m source)).name) =
        (.ok name : Except GraphError String) ∧ g.Registers m source name := by
    intro source hsource
    obtain ⟨id, b, hdependency, htarget, hb⟩ := hg.leadsTo_of_resolved hm hresolved hsource
    refine ⟨b.name, ?_, id, b, htarget, hb, rfl⟩
    rw [requireDependency_eq_ok.mpr hdependency]
    exact bind_eq_ok.mpr ⟨id, rfl, bind_eq_ok.mpr ⟨b, requireModule_eq_ok.mpr hb, rfl⟩⟩
  obtain ⟨names, hnames⟩ := mapM_eq_ok fun source hsource =>
    (hname source hsource).imp fun _ h => h.1
  refine ⟨names, hnames, ?_⟩
  have hall := (List.forall₂_and_left _ _).mpr ⟨fun _ hsource => hsource, forall₂_of_mapM hnames⟩
  refine hall.imp ?_
  rintro source name ⟨hsource, hok⟩
  obtain ⟨name', hok', hregisters⟩ := hname source hsource
  cases hok.symm.trans hok'
  exact hregisters

theorem formatModule_eq_ok
    {m : GraphModule}
    {id : ModuleId}
    {kind : GraphFormat}
    {format : FormatOptions}
    {out : OutputProgram}
    (hm : g.module? id = some m)
    (h : g.formatModule kind format id = .ok out) :
    ∃ target, g.targetOf m kind format = .ok target ∧
      transpileFor target m.text (g.moduleOptions m format) = .ok out.output := by
  obtain ⟨m', hm', h⟩ := bind_eq_ok.mp h
  cases hm.symm.trans (requireModule_eq_ok.mp hm')
  obtain ⟨target, htarget, h⟩ := bind_eq_ok.mp h
  refine ⟨target, htarget, ?_⟩
  split at h
  · cases h
    assumption
  · cases h

theorem formatModule_system
    {m : GraphModule}
    {format : FormatOptions}
    {id : ModuleId}
    {out : OutputProgram}
    (hm : g.module? id = some m)
    (h : g.formatModule .system format id = .ok out) :
    ∃ names stars, g.dependencyNames m = .ok names ∧ g.starAccessors m format = .ok stars ∧
      transpileFor (Target.system ⟨names, stars⟩) m.text (g.moduleOptions m format) =
        .ok out.output := by
  obtain ⟨target, htarget, hrun⟩ := formatModule_eq_ok hm h
  obtain ⟨names, hnames, htarget⟩ := bind_eq_ok.mp htarget
  obtain ⟨stars, hstars, htarget⟩ := bind_eq_ok.mp htarget
  cases htarget
  exact ⟨names, stars, hnames, hstars, hrun⟩

/-- What is read through star exports is read on the handles of the star sources. -/
theorem starGetter_starAccessors
    {m : GraphModule}
    {program : Program}
    (hbuild : Catalog.build m.text program = .ok m.catalog)
    {format : FormatOptions}
    {stars : List (String × String)}
    (h : g.starAccessors m format = .ok stars) :
    ∀ accessor ∈ stars, StarGetter program format accessor := by
  rintro ⟨n, value⟩ hmem
  obtain ⟨-, -, source, handle, hfirst, hhandle, hvalue⟩ := (mem_starAccessors_iff h).mp hmem
  obtain ⟨before, rest, hstars, -, -⟩ := hfirst
  have hsource : source ∈ m.catalog.stars := by simp [hstars]
  obtain ⟨i, hi, rfl⟩ := Catalog.getElem?_of_handle? hhandle
  rw [Catalog.sources_build hbuild] at hi
  exact ⟨i, source, hi, ((Catalog.lists_build hbuild).2.2 source).mp hsource, hvalue⟩

/-- A `system` output of a module of the graph: the dependencies are the modules that its sources
stand for. -/
structure SystemModule
    (g : Graph)
    (m : GraphModule)
    (format : FormatOptions)
    {links : Target.SystemLinks}
    (a : Assembly (Target.system links) m.text (g.moduleOptions m format)) :
    Prop where
  dependencies : List.Forall₂ (g.Registers m) a.program.distinctSources links.dependencyNames
  stars : ∀ accessor ∈ links.starAccessors, StarGetter a.program format accessor

theorem exists_systemModule
    (hg : g.Coherent)
    {m : GraphModule}
    (hm : m ∈ g.modules)
    (hlocal : m.external = false)
    (hresolved : m.resolved = true)
    {format : FormatOptions}
    {out : OutputProgram}
    (h : g.formatModule .system format m.id = .ok out) :
    ∃ (links : Target.SystemLinks)
      (a : Assembly (Target.system links) m.text (g.moduleOptions m format))
      (keys : List String) (accessors : List (String × String)),
      a.Gives out.output ∧ SystemLinked a keys accessors ∧ g.SystemModule m format a := by
  obtain ⟨names, stars, hnames, hstars, hrun⟩ :=
    formatModule_system (hg.module?_of_mem hm) h
  obtain ⟨a, keys, accessors, hgives, hlinked⟩ := exists_systemLinked hrun
  obtain ⟨program, hparse, hbuild⟩ := hg.build_of_local hm hlocal
  have hprogram : program = a.program := Except.ok.inj (hparse.symm.trans a.hparse)
  rw [hprogram] at hbuild
  obtain ⟨names', hnames', hregisters⟩ := hg.dependencyNames_eq_ok hm hresolved
  cases hnames.symm.trans hnames'
  rw [Catalog.sources_build hbuild] at hregisters
  exact ⟨_, a, keys, accessors, hgives, hlinked, hregisters,
    starGetter_starAccessors hbuild hstars⟩

/-- Every handle stands for the module that its source names: the lists of dependencies, the
parameters and everything that reads the handles have one numbering. -/
theorem handles_stand_for_sources :
    (∀ text options r, transpileFor Target.amd text options = .ok r →
        ∃ (a : Assembly Target.amd text options) (keys : List String)
          (accessors : List (String × String)), a.Gives r ∧ AmdLinked a keys accessors) ∧
      (∀ text options r, transpileFor Target.yui text options = .ok r →
        ∃ (a : Assembly Target.yui text options) (keys : List String)
          (accessors : List (String × String)), a.Gives r ∧ YuiLinked a keys accessors) ∧
      ∀ (g : Graph) (m : GraphModule) (format : FormatOptions),
        g.Reached → (∀ m ∈ g.modules, m.resolved = true) → m ∈ g.modules → m.external = false →
          (∃ names, g.dependencyNames m = .ok names) ∧
            ∀ out, g.formatModule .system format m.id = .ok out →
              ∃ (links : Target.SystemLinks)
                (a : Assembly (Target.system links) m.text (g.moduleOptions m format))
                (keys : List String) (accessors : List (String × String)),
                a.Gives out.output ∧ SystemLinked a keys accessors ∧ g.SystemModule m format a := by
  refine ⟨fun _ _ _ => exists_amdLinked, fun _ _ _ => exists_yuiLinked, ?_⟩
  intro g m format hg hresolved hm hlocal
  refine ⟨?_, ?_⟩
  · obtain ⟨names, hnames, -⟩ := hg.coherent.dependencyNames_eq_ok hm (hresolved m hm)
    exact ⟨names, hnames⟩
  · exact fun out h => exists_systemModule hg.coherent hm hlocal (hresolved m hm) h

/-- A module that names one source in two statements, with another source between them. -/
def sharedSource : String :=
  "import a, \x7b x \x7d from './p';\nexport \x7b y as z \x7d from 'q';\n" ++
    "import \x7b w \x7d from './p';\nexport \x7b x \x7d;\na(w);\n"

/-- A module that imports and exports through two others, one of which imports it again. -/
def crossedPair : Graph :=
  after (addEntry "m")
    (.empty "/p"
      (.ofTexts
        [("/p/m.js", "import \x7b x \x7d from './d/a';\nexport * from './b';\n" ++
            "export \x7b x \x7d;\nexport \x7b y \x7d from './d/a';\n"),
          ("/p/d/a.js", "export var x = 1, y = 2;\n"),
          ("/p/b.js", "import './m';\nexport var z = 3;\n")])
      (Resolver.defaults []))

theorem handles_stand_for_sources_sharedSource_crossedPair :
    (∃ r, transpileFor Target.amd sharedSource ⟨some "d/n", none, some "d", {}⟩ = .ok r ∧
        ∃ (a : Assembly Target.amd sharedSource ⟨some "d/n", none, some "d", {}⟩)
          (keys : List String) (accessors : List (String × String)),
          a.Gives r ∧ AmdLinked a keys accessors) ∧
      (∃ r, transpileFor Target.yui sharedSource ⟨some "d/n", none, some "d", {}⟩ = .ok r ∧
        ∃ (a : Assembly Target.yui sharedSource ⟨some "d/n", none, some "d", {}⟩)
          (keys : List String) (accessors : List (String × String)),
          a.Gives r ∧ YuiLinked a keys accessors) ∧
      ∃ m ∈ crossedPair.modules, crossedPair.dependencyNames m = .ok ["d/a", "b"] ∧
        ∃ out, crossedPair.formatModule .system {} m.id = .ok out ∧
          ∃ (links : Target.SystemLinks)
            (a : Assembly (Target.system links) m.text (crossedPair.moduleOptions m {}))
            (keys : List String) (accessors : List (String × String)),
            a.Gives out.output ∧ SystemLinked a keys accessors ∧
              crossedPair.SystemModule m {} a := by
  have hmodules :
      (transpileFor Target.amd sharedSource ⟨some "d/n", none, some "d", {}⟩).toOption.map
          (fun _ => ()) = some () ∧
        (transpileFor Target.yui sharedSource ⟨some "d/n", none, some "d", {}⟩).toOption.map
          (fun _ => ()) = some () := by
    simp only [transpileFor_eq]
    decide +kernel
  have hgraph :
      crossedPair.modules.all (·.resolved) = true ∧
        (crossedPair.module? ⟨"/p/m.js"⟩).map (fun m =>
            (m.external, crossedPair.dependencyNames m,
              (crossedPair.formatModule .system {} m.id).toOption.map fun _ => ())) =
          some (false, .ok ["d/a", "b"], some ()) := by
    simp only [Graph.formatModule, transpileFor_eq]
    decide +kernel
  obtain ⟨hamd, hyui, hsystem⟩ := handles_stand_for_sources
  obtain ⟨amd, hamdRun, -⟩ := ok_of_toOption_map hmodules.1
  obtain ⟨yui, hyuiRun, -⟩ := ok_of_toOption_map hmodules.2
  obtain ⟨hresolved, hfacts⟩ := hgraph
  rw [List.all_eq_true] at hresolved
  obtain ⟨m, hm, hfacts⟩ := Option.map_eq_some_iff.mp hfacts
  simp only [Prod.mk.injEq] at hfacts
  obtain ⟨hlocal, hnames, hformat⟩ := hfacts
  obtain ⟨out, hout, -⟩ := ok_of_toOption_map hformat
  have hreached : crossedPair.Reached := .addEntry (.empty _ _ _) _
  obtain ⟨-, houtput⟩ :=
    hsystem crossedPair m {} hreached hresolved (mem_of_module? hm) hlocal
  exact ⟨⟨amd, hamdRun, hamd _ _ _ hamdRun⟩, ⟨yui, hyuiRun, hyui _ _ _ hyuiRun⟩,
    m, mem_of_module? hm, hnames, out, hout, houtput out hout⟩

end Graph
end EsModules
