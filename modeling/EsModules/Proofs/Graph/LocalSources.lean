import EsModules.Proofs.Graph.ExternalSources
import EsModules.Proofs.Graph.RequirePath

/-!
# Sources that lead to local modules

A `commonjs` output requires a local module by the path between the two names.  The reader of the
output takes it for a file only if it is a relative specifier, and for a module of the host
otherwise.  Names come from files (`Origin.file`), and a file may have a name that begins with two
dots: then the path has no dot in front and is not relative (`local_source_bare`).
-/

namespace EsModules
namespace Graph

open Syntax Transpile

/-- A local module has its name from its file. -/
theorem Genuine.exists_path
    {g : Graph}
    {m : GraphModule}
    (h : g.Genuine m)
    (hlocal : m.external = false) :
    ∃ path, m.path = some path ∧ registrationName? g.root path = some m.name := by
  cases h.origin with
  | external hm =>
      rw [hm] at hlocal
      cases hlocal
  | file _ hpath _ hname => exact ⟨_, hpath, hname⟩

/-- What a `commonjs` output requires for a source that leads to a local module is the path between
the names of the two files.  This is a relative specifier, unless the second file lies below the
directory of the first one and its name goes on there with a segment that begins with two dots. -/
theorem local_source_relative_iff
    (g : Graph)
    (hg : g.Completed)
    {m b : GraphModule}
    {source : String}
    (hm : m ∈ g.modules)
    (hlocal : m.external = false)
    (hleads : g.LeadsTo m source b)
    (hfile : b.external = false) :
    (∃ path path', m.path = some path ∧ registrationName? g.root path = some m.name ∧
        b.path = some path' ∧ registrationName? g.root path' = some b.name) ∧
      (∀ id format, g.module? id = some m → Text.isBlankText m.name = false →
        ∃ out, g.formatModule .commonJs format id = .ok out ∧
          g.CommonJsWrites m format out.output source (relativeRequire m.name b.name)) ∧
      (Path.isRelative (relativeRequire m.name b.name) = true ↔ ¬DottedBelow m.name b.name) := by
  have hcoherent := hg.reached.coherent
  have hmem : b ∈ g.modules := hleads.elim fun _ h => mem_of_module? h.2
  obtain ⟨path, hpath, hname⟩ := (hcoherent.genuine m hm).exists_path hlocal
  obtain ⟨path', hpath', hname'⟩ := (hcoherent.genuine b hmem).exists_path hfile
  refine ⟨⟨path, path', hpath, hname, hpath', hname'⟩, ?_, isRelative_relativeRequire_iff _ _⟩
  intro id format hid hnamed
  rcases hg.formatModule_cases hid hlocal .commonJs format with
    ⟨output, hok, -⟩ | ⟨e, -, hunwritable⟩
  · have hwrites := hcoherent.commonJsWrites_requirePath hid hlocal (hg.resolved m hm) hleads hok
    rw [if_neg (by simp [hfile])] at hwrites
    exact ⟨_, hok, hwrites⟩
  · exact (writable_commonJs_iff.mpr hnamed e hunwritable).elim

/-- A module imports a file below a directory and a file whose name begins with two dots. -/
def dottedFile : Graph :=
  after (addEntry "main")
    (.empty "/p"
      (.ofTexts
        [("/p/main.js", "import './lib/..a';\nimport './..util';\n"), ("/p/lib/..a.js", ""),
          ("/p/..util.js", "")])
      (Resolver.defaults []))

theorem completed_dottedFile : dottedFile.Completed := by
  have hok : outcome (Call.addEntry "main").step
      (.empty "/p"
        (.ofTexts
          [("/p/main.js", "import './lib/..a';\nimport './..util';\n"), ("/p/lib/..a.js", ""),
            ("/p/..util.js", "")])
        (Resolver.defaults [])) = .ok ⟨"/p/main.js"⟩ := by
    decide +kernel
  exact Completed.call (.empty _ _ _) (.addEntry "main") hok

/-- The path to one of the two files is relative, although its name begins with two dots as well. -/
theorem local_source_relative_iff_dottedFile :
    ∃ m ∈ dottedFile.modules, ∃ b c,
      m.external = false ∧
      dottedFile.LeadsTo m "./lib/..a" b ∧ b.external = false ∧
      dottedFile.LeadsTo m "./..util" c ∧ c.external = false ∧
      (∃ out, dottedFile.formatModule .commonJs {} m.id = .ok out ∧
        dottedFile.CommonJsWrites m {} out.output "./lib/..a" "./lib/..a" ∧
        dottedFile.CommonJsWrites m {} out.output "./..util" "..util") ∧
      ¬DottedBelow m.name b.name ∧ DottedBelow m.name c.name := by
  have hfacts :
      (dottedFile.module? ⟨"/p/main.js"⟩).map (fun m =>
          (m.name, m.external, m.dependency? "./lib/..a", m.dependency? "./..util")) =
          some ("main", false, some ⟨"/p/lib/..a.js"⟩, some ⟨"/p/..util.js"⟩) ∧
        (dottedFile.module? ⟨"/p/lib/..a.js"⟩).map (fun b => (b.name, b.external)) =
          some ("lib/..a", false) ∧
        (dottedFile.module? ⟨"/p/..util.js"⟩).map (fun c => (c.name, c.external)) =
          some ("..util", false) := by
    decide +kernel
  obtain ⟨hmain, hbelow, hbeside⟩ := hfacts
  obtain ⟨m, hm, hmain⟩ := Option.map_eq_some_iff.mp hmain
  obtain ⟨b, hb, hbelow⟩ := Option.map_eq_some_iff.mp hbelow
  obtain ⟨c, hc, hbeside⟩ := Option.map_eq_some_iff.mp hbeside
  simp only [Prod.mk.injEq] at hmain hbelow hbeside
  obtain ⟨hname, hlocal, hdependency, hdependency'⟩ := hmain
  obtain ⟨hnameB, hfileB⟩ := hbelow
  obtain ⟨hnameC, hfileC⟩ := hbeside
  have hmem := mem_of_module? hm
  have hleadsB : dottedFile.LeadsTo m "./lib/..a" b := ⟨_, hdependency, hb⟩
  have hleadsC : dottedFile.LeadsTo m "./..util" c := ⟨_, hdependency', hc⟩
  obtain ⟨-, hwritesB, hrelativeB⟩ := local_source_relative_iff dottedFile completed_dottedFile
    hmem hlocal hleadsB hfileB
  obtain ⟨-, hwritesC, hrelativeC⟩ := local_source_relative_iff dottedFile completed_dottedFile
    hmem hlocal hleadsC hfileC
  have hnamed : Text.isBlankText m.name = false := by
    rw [hname]
    decide +kernel
  obtain ⟨out, hok, hwritten⟩ := hwritesB m.id {} (module?_id hm) hnamed
  obtain ⟨out', hok', hwritten'⟩ := hwritesC m.id {} (module?_id hm) hnamed
  cases hok.symm.trans hok'
  have hpaths : relativeRequire "main" "lib/..a" = "./lib/..a" ∧
      Path.isRelative "./lib/..a" = true ∧
      relativeRequire "main" "..util" = "..util" ∧ ¬Path.isRelative "..util" = true := by
    decide +kernel
  obtain ⟨hpathB, hdot, hpathC, hbare⟩ := hpaths
  rw [hname, hnameB, hpathB] at hwritten hrelativeB
  rw [hname, hnameC, hpathC] at hwritten' hrelativeC
  refine ⟨m, hmem, b, c, hlocal, hleadsB, hfileB, hleadsC, hfileC,
    ⟨out, hok, hwritten, hwritten'⟩, ?_, ?_⟩
  · rw [hname, hnameB]
    exact hrelativeB.mp hdot
  · rw [hname, hnameC]
    exact not_not.mp fun h => hbare (hrelativeC.mpr h)

/-- The other file is required as if it were a module of the host. -/
theorem local_source_bare :
    dottedFile.Completed ∧
    (dottedFile.modules.map fun m => (m.name, m.external)) =
      [("main", false), ("lib/..a", false), ("..util", false)] ∧
    Path.isRelative "..util" = false ∧
    (dottedFile.formatModule .commonJs {} ⟨"/p/main.js"⟩).toOption.map (·.output.code) =
      some ("\"use strict\";\nvar __es6_module__ = exports;\n" ++
        "var __imports_0__ = require(\"./lib/..a\");\n" ++
        "var __imports_1__ = require(\"..util\");\n") := by
  refine ⟨completed_dottedFile, ?_⟩
  simp only [Graph.formatModule, transpileFor_eq]
  decide +kernel

end Graph
end EsModules
