import EsModules.Proofs.Graph.Building

/-!
# Spellings of external modules

The identity of an external module is compared by the steps behind its mark, so that names such as
`a/b` and `a//b` stand for one module.  It keeps the name under which it was provided first
(`Later.mem`), and the outputs of both formats write this name for every source that stands for
it, however the source itself is spelled.
-/

namespace EsModules
namespace Graph

open Syntax Transpile

variable {g g' : Graph} {m b : GraphModule} {source : String}

/-- Calls lead from a graph to another one, whether they fail or not. -/
def Later (g g' : Graph) : Prop :=
  Relation.ReflTransGen (fun g g' => ∃ call : Call, g' = after call.step g) g g'

/-- The modules of a graph stay as they are. -/
theorem Later.mem (h : Later g g') (hm : m ∈ g.modules) : m ∈ g'.modules := by
  induction h with
  | refl => exact hm
  | tail _ hcall ih =>
      obtain ⟨call, rfl⟩ := hcall
      obtain ⟨added, hmodules, -⟩ := call.ends_adds _
      rw [hmodules]
      exact List.mem_append_left _ ih

/-! ### What a source stands for -/

theorem Genuine.target?_of_dependency?
    {id : ModuleId}
    (h : g.Genuine m)
    (hid : m.dependency? source = some id) :
    g.target? m.id source = some id := by
  obtain ⟨link, hfind, rfl⟩ := Option.map_eq_some_iff.mp hid
  have hlink := List.mem_of_find?_eq_some hfind
  obtain rfl : link.1 = source := by simpa using List.find?_some hfind
  cases h with
  | external name => cases hlink
  | loaded hid hread hsources htargets hdone =>
      obtain ⟨name, text, catalog, -, -, -, rfl⟩ := readModule_eq_ok hread
      exact htargets link hlink

/-- External modules are provided under the specifier itself. -/
theorem eq_of_resolution?_external
    {name : String}
    {importer : ModuleId}
    (h : g.resolution? source importer = some (.external name)) :
    name = source := by
  obtain ⟨r, -, hr⟩ := List.exists_of_findSome?_eq_some h
  cases r with
  | relative =>
      simp only [Resolver.resolve?] at hr
      split at hr
      · simp at hr
      · cases hr
  | external whitelist =>
      simp only [Resolver.resolve?, Option.ite_none_right_eq_some] at hr
      obtain ⟨-, ⟨⟩⟩ := hr
      rfl

/-- A source that leads to an external module has the steps of its name. -/
theorem Coherent.same_of_leadsTo_external
    (hg : g.Coherent)
    (hm : m ∈ g.modules)
    (hleads : g.LeadsTo m source b)
    (hexternal : b.external = true) :
    b = .ofExternal b.name ∧ (ModuleId.external b.name).same (.external source) = true := by
  obtain ⟨id, hdependency, hb⟩ := hleads
  have hname := (hg.genuine b (mem_of_module? hb)).eq_ofExternal hexternal
  refine ⟨hname, ?_⟩
  have hsame := same_of_module? hb
  have hmark := ModuleId.isExternal_congr hsame
  rw [hname] at hsame hmark
  have htarget := (hg.genuine m hm).target?_of_dependency? hdependency
  unfold target? at htarget
  split at htarget
  · cases htarget
  · rename_i hresolution
    cases htarget
    rw [← eq_of_resolution?_external hresolution]
    exact hsame
  · rename_i path hresolution
    -- a file never gets the mark
    have hfile := isExternal_of_ofPath (finds_of_resolution? hresolution)
      (toOption_eq_some.mp htarget)
    rw [hfile] at hmark
    cases (ModuleId.isExternal_external b.name).symm.trans hmark

/-! ### What the outputs write -/

/-- The list of dependencies in a `system` output has a name at the place of a source. -/
def SystemWrites
    (g : Graph)
    (m : GraphModule)
    (format : FormatOptions)
    (output : Rendered)
    (source name : String) :
    Prop :=
  ∃ (links : Target.SystemLinks)
    (a : Assembly (Target.system links) m.text (g.moduleOptions m format))
    (keys : List String) (accessors : List (String × String)) (i : Nat),
    a.Gives output ∧ SystemLinked a keys accessors ∧
      a.program.distinctSources[i]? = some source ∧ links.dependencyNames[i]? = some name

/-- The statement for a source in a `commonjs` output requires a name. -/
def CommonJsWrites
    (g : Graph)
    (m : GraphModule)
    (format : FormatOptions)
    (output : Rendered)
    (source name : String) :
    Prop :=
  ∃ (paths : List (String × String))
    (a : Assembly (Target.commonJs paths) m.text (g.moduleOptions m format))
    (i : Nat),
    a.Gives output ∧ a.program.distinctSources[i]? = some source ∧
      Target.requirePath paths source = name ∧
      ∃ e ∈ a.edits, ∃ rest,
        e.text = s!"var {Catalog.handleName i} = require({a.view.quote name});" ++ rest

/-- The sources of an output are those of the catalog. -/
theorem Coherent.sources_assembly
    (hg : g.Coherent)
    (hm : m ∈ g.modules)
    (hlocal : m.external = false)
    {target : Target}
    {options : TranspileOptions}
    (a : Assembly target m.text options) :
    m.catalog.sources = a.program.distinctSources := by
  obtain ⟨program, hparse, hbuild⟩ := hg.build_of_local hm hlocal
  cases hparse.symm.trans a.hparse
  exact Catalog.sources_build hbuild

theorem Coherent.mem_sources_of_leadsTo
    (hg : g.Coherent)
    (hm : m ∈ g.modules)
    (hlocal : m.external = false)
    (hleads : g.LeadsTo m source b) :
    source ∈ m.catalog.sources := by
  obtain ⟨id, hid, -⟩ := hleads
  obtain ⟨link, hfind, rfl⟩ := Option.map_eq_some_iff.mp hid
  obtain rfl : link.1 = source := by simpa using List.find?_some hfind
  apply ((hg.genuine m hm).sources hlocal).1.subset
  exact List.mem_map_of_mem (List.mem_of_find?_eq_some hfind)

/-- What is required for a source is what its own module gives. -/
theorem requirePath_eq
    {sources : List String}
    {paths : List (String × String)}
    (h : List.Forall₂ (g.Requires m) sources paths)
    (hsource : source ∈ sources)
    (hleads : g.LeadsTo m source b) :
    Target.requirePath paths source =
      if b.external then b.name else relativeRequire m.name b.name := by
  obtain ⟨i, hi⟩ := List.getElem?_of_mem hsource
  obtain ⟨_, hentry, c, -, rfl⟩ := getElem?_of_forall₂ h hi
  obtain ⟨found, hfound⟩ : ∃ found, paths.find? (·.1 == source) = some found :=
    Option.isSome_iff_exists.mp
      (List.find?_isSome.mpr ⟨_, List.mem_of_getElem? hentry, by simp⟩)
  obtain ⟨j, hj⟩ := List.getElem?_of_mem (List.mem_of_find?_eq_some hfound)
  obtain ⟨source', -, c', hleads', rfl⟩ := getElem?_of_forall₂ h.flip hj
  obtain rfl : source' = source := by simpa using List.find?_some hfound
  cases hleads'.unique hleads
  rw [Target.requirePath, hfound]
  rfl

section Outputs

variable {id : ModuleId} {format : FormatOptions} {out : OutputProgram}

/-- A `system` output lists for every source the name of the module that it leads to. -/
theorem Coherent.systemWrites
    (hg : g.Coherent)
    (hid : g.module? id = some m)
    (hlocal : m.external = false)
    (hresolved : m.resolved = true)
    (hleads : g.LeadsTo m source b)
    (h : g.formatModule .system format id = .ok out) :
    g.SystemWrites m format out.output source b.name := by
  have hm := mem_of_module? hid
  obtain ⟨names, stars, hnames, -, hrun⟩ := formatModule_system hid h
  obtain ⟨a, keys, accessors, hgives, hlinked⟩ := exists_systemLinked hrun
  obtain ⟨names', hnames', hregisters⟩ := hg.dependencyNames_eq_ok hm hresolved
  cases hnames.symm.trans hnames'
  obtain ⟨i, hi⟩ := List.getElem?_of_mem (hg.mem_sources_of_leadsTo hm hlocal hleads)
  obtain ⟨name, hname, target, c, htarget, hc, rfl⟩ := getElem?_of_forall₂ hregisters hi
  obtain ⟨target', hdependency, hb⟩ := hleads
  cases htarget.symm.trans ((hg.genuine m hm).target?_of_dependency? hdependency)
  cases hc.symm.trans hb
  rw [hg.sources_assembly hm hlocal a] at hi
  exact ⟨_, a, keys, accessors, i, hgives, hlinked, hi, hname⟩

/-- A `commonjs` output requires an external module by its name and a local one by a path. -/
theorem Coherent.commonJsWrites_requirePath
    (hg : g.Coherent)
    (hid : g.module? id = some m)
    (hlocal : m.external = false)
    (hresolved : m.resolved = true)
    (hleads : g.LeadsTo m source b)
    (h : g.formatModule .commonJs format id = .ok out) :
    g.CommonJsWrites m format out.output source
      (if b.external then b.name else relativeRequire m.name b.name) := by
  have hm := mem_of_module? hid
  have hsource := hg.mem_sources_of_leadsTo hm hlocal hleads
  obtain ⟨target, htarget, hrun⟩ := formatModule_eq_ok hid h
  obtain ⟨paths, hpaths, htarget⟩ := bind_eq_ok.mp htarget
  cases htarget
  obtain ⟨a, hgives⟩ := exists_assembly hrun
  have hpath : Target.requirePath paths source =
      if b.external then b.name else relativeRequire m.name b.name := by
    obtain ⟨paths', hpaths', hrequires⟩ := hg.requirePaths_eq_ok hm hresolved
    cases hpaths.symm.trans hpaths'
    exact requirePath_eq hrequires hsource hleads
  have hnamed : source ∈ a.program.items.filterMap Item.source? := by
    rw [hg.sources_assembly hm hlocal a] at hsource
    exact List.mem_eraseDups.mp hsource
  obtain ⟨i, key, hi, -, e, he, rest, htext⟩ :=
    (a.loads_declarationEdits a.hdeclarations).loads source hnamed (by simp)
  rw [Catalog.sources_build a.hcatalog] at hi
  refine ⟨paths, a, i, hgives, hi, hpath, e, ?_, rest, ?_⟩
  · simp [Assembly.edits, moduleEdits, he]
  · rw [htext, ← hpath]
    rfl

theorem Coherent.commonJsWrites
    (hg : g.Coherent)
    (hid : g.module? id = some m)
    (hlocal : m.external = false)
    (hresolved : m.resolved = true)
    (hleads : g.LeadsTo m source b)
    (hexternal : b.external = true)
    (h : g.formatModule .commonJs format id = .ok out) :
    g.CommonJsWrites m format out.output source b.name := by
  have hwrites := hg.commonJsWrites_requirePath hid hlocal hresolved hleads h
  rwa [if_pos hexternal] at hwrites

end Outputs

/-- A source that leads to an external module is written as the name under which a module with its
steps was provided first, by this call or an earlier one and for this module or another one.  So it
is written as it stands if and only if the graph has a module of that very name. -/
theorem external_source_written
    (g : Graph)
    (hg : g.Completed)
    {m b : GraphModule}
    {source : String}
    (hm : m ∈ g.modules)
    (hlocal : m.external = false)
    (hleads : g.LeadsTo m source b)
    (hexternal : b.external = true) :
    (ModuleId.external b.name).same (.external source) = true ∧
      (∀ (earlier : Graph) (name : String), earlier.Later g →
        GraphModule.ofExternal name ∈ earlier.modules →
        (ModuleId.external name).same (.external source) = true → b.name = name) ∧
      (b.name = source ↔ GraphModule.ofExternal source ∈ g.modules) ∧
      ∀ id format out, g.module? id = some m →
        (g.formatModule .system format id = .ok out →
          g.SystemWrites m format out.output source b.name) ∧
        (g.formatModule .commonJs format id = .ok out →
          g.CommonJsWrites m format out.output source b.name) := by
  have hcoherent := hg.reached.coherent
  obtain ⟨hb, hsame⟩ := hcoherent.same_of_leadsTo_external hm hleads hexternal
  have hmem : b ∈ g.modules := hleads.elim fun _ h => mem_of_module? h.2
  have hfirst : ∀ name, GraphModule.ofExternal name ∈ g.modules →
      (ModuleId.external name).same (.external source) = true → b.name = name := by
    intro name hname hsame'
    have hids : b.id.same (GraphModule.ofExternal name).id = true := by
      rw [hb]
      exact ModuleId.same_iff.mpr
        ((ModuleId.same_iff.mp hsame).trans (ModuleId.same_iff.mp hsame').symm)
    rw [hcoherent.eq_of_same hmem hname hids]
    rfl
  refine ⟨hsame, ?_, ⟨?_, ?_⟩, ?_⟩
  · intro earlier name hlater hname
    exact hfirst name (hlater.mem hname)
  · intro hname
    rw [← hname, ← hb]
    exact hmem
  · intro hname
    exact hfirst source hname (ModuleId.same_iff.mpr rfl)
  · intro id format out hid
    have hresolved := hg.resolved m hm
    exact ⟨hcoherent.systemWrites hid hlocal hresolved hleads,
      hcoherent.commonJsWrites hid hlocal hresolved hleads hexternal⟩

/-- A module imports two names that have the same steps. -/
def twoSpellings : Graph :=
  after (addEntry "main")
    (.empty "/p" (.ofTexts [("/p/main.js", "import 'punycode/';\nimport 'punycode';\n")])
      (Resolver.defaults []))

theorem completed_twoSpellings : twoSpellings.Completed := by
  have hok : outcome (Call.addEntry "main").step
      (.empty "/p" (.ofTexts [("/p/main.js", "import 'punycode/';\nimport 'punycode';\n")])
        (Resolver.defaults [])) = .ok ⟨"/p/main.js"⟩ := by
    decide +kernel
  exact Completed.call (.empty _ _ _) (.addEntry "main") hok

/-- Both sources lead to the module that was provided for the first one, and the second one is
written as the first one is spelled. -/
theorem external_source_written_twoSpellings :
    ∃ m ∈ twoSpellings.modules, ∃ b,
      m.external = false ∧ twoSpellings.LeadsTo m "punycode" b ∧ b.external = true ∧
      (∃ out, twoSpellings.formatModule .system {} m.id = .ok out ∧
        twoSpellings.SystemWrites m {} out.output "punycode" "punycode/") ∧
      ∃ out, twoSpellings.formatModule .commonJs {} m.id = .ok out ∧
        twoSpellings.CommonJsWrites m {} out.output "punycode" "punycode/" := by
  have hfacts :
      (twoSpellings.module? ⟨"/p/main.js"⟩).map (fun m =>
          (m.external, m.dependency? "punycode",
            (twoSpellings.formatModule .system {} m.id).toOption.map (fun _ => ()),
            (twoSpellings.formatModule .commonJs {} m.id).toOption.map fun _ => ())) =
          some (false, some ⟨"external:punycode"⟩, some (), some ()) ∧
        (twoSpellings.module? ⟨"external:punycode"⟩).map (fun b => (b.external, b.name)) =
          some (true, "punycode/") := by
    simp only [Graph.formatModule, transpileFor_eq]
    decide +kernel
  obtain ⟨hmain, hhost⟩ := hfacts
  obtain ⟨m, hm, hmain⟩ := Option.map_eq_some_iff.mp hmain
  obtain ⟨b, hb, hhost⟩ := Option.map_eq_some_iff.mp hhost
  simp only [Prod.mk.injEq] at hmain hhost
  obtain ⟨hlocal, hdependency, hsystem, hcommonJs⟩ := hmain
  obtain ⟨hexternal, hname⟩ := hhost
  obtain ⟨system, hsystem, -⟩ := ok_of_toOption_map hsystem
  obtain ⟨commonJs, hcommonJs, -⟩ := ok_of_toOption_map hcommonJs
  have hmem := mem_of_module? hm
  have hleads : twoSpellings.LeadsTo m "punycode" b := ⟨_, hdependency, hb⟩
  obtain ⟨-, -, -, hwrites⟩ :=
    external_source_written twoSpellings completed_twoSpellings hmem hlocal hleads hexternal
  rw [hname] at hwrites
  exact ⟨m, hmem, b, hlocal, hleads, hexternal,
    ⟨system, hsystem, (hwrites m.id {} system (module?_id hm)).1 hsystem⟩,
    commonJs, hcommonJs, (hwrites m.id {} commonJs (module?_id hm)).2 hcommonJs⟩

/-- The second source is not written as it stands. -/
theorem external_source_respelled :
    twoSpellings.Completed ∧
    (twoSpellings.modules.map fun m => (m.name, m.external, m.catalog.sources)) =
      [("main", false, ["punycode/", "punycode"]), ("punycode/", true, [])] ∧
    (twoSpellings.build .commonJs {}).toOption.map (·.map (·.output.code)) =
      some ["\"use strict\";\nvar __es6_module__ = exports;\n" ++
        "var __imports_0__ = require(\"punycode/\");\n" ++
        "var __imports_1__ = require(\"punycode/\");\n"] ∧
    (twoSpellings.build .system {}).toOption.map (·.map (·.output.code)) =
      some ["System.register(\"main\", [\"punycode/\", \"punycode/\"], function () \x7b\n" ++
        "  var __es6_module__ = \x7b\x7d;\n  return \x7b\n" ++
        "    \"exports\": __es6_module__,\n    \"bindings\": [],\n" ++
        "    \"deps\": [\"punycode/\", \"punycode/\"],\n" ++
        "    \"fn\": function (__imports_0__, __imports_1__) \x7b\n" ++
        "\"use strict\";\nObject.seal(__es6_module__);\n\n\n    \x7d\n  \x7d;\n\x7d);\n"] := by
  refine ⟨completed_twoSpellings, ?_⟩
  simp +unfoldPartialApp only [Graph.build, Graph.formatModule, transpileFor_eq]
  decide +kernel

end Graph
end EsModules
