import EsModules.Proofs.Graph.Closure
import EsModules.Proofs.Graph.FailedCalls
import EsModules.Proofs.Path.Normal

/-!
# What every graph keeps

A step may fail anywhere inside the imports of a module.  Whatever it leaves behind, every module is
found under its own identity, every identity that is noted leads to a module, and a module is what
its text makes it, with a first part of its sources linked.

The mark of external modules is a part of their identities.  It is read off the first step of a path
(`isMarked_iff`), so that identities with the same steps agree on it, and no file that is looked up
gets it (`isMarked_clean_of_finds`).
-/

namespace EsModules

open EsModules.Path

/-! ### Marks -/

namespace ModuleId

theorem isMarked_append {path : String} (h : isMarked path = true) (rest : String) :
    isMarked (path ++ rest) = true := by
  unfold isMarked at *
  rw [List.isPrefixOf_iff_prefix] at *
  rw [String.toList_append]
  exact h.trans (List.prefix_append _ _)

/-- The mark stands in the first segment. -/
theorem isMarked_iff_segment (path : String) :
    isMarked path = true ↔
      ∃ first rest, segments path = first :: rest ∧ isMarked first = true := by
  constructor
  · intro h
    obtain ⟨back, hback⟩ := List.isPrefixOf_iff_prefix.mp h
    have hslash : '/' ∉ externalMark.toList := by decide
    obtain ⟨first, rest, -, hsplit⟩ := splitAt_append_of_not_mem hslash back
    refine ⟨String.ofList (externalMark.toList ++ first), rest.map String.ofList, ?_, ?_⟩
    · rw [segments, ← hback, hsplit, List.map_cons]
    · unfold isMarked
      rw [String.toList_ofList]
      exact List.isPrefixOf_iff_prefix.mpr (List.prefix_append _ _)
  · rintro ⟨first, rest, hsegments, hfirst⟩
    rw [← intercalate_segments path, hsegments]
    cases rest with
    | nil =>
        rw [String.intercalate_singleton]
        exact hfirst
    | cons second rest =>
        rw [String.intercalate_cons_cons, String.append_assoc]
        exact isMarked_append hfirst _

/-- A marked segment is a name. -/
theorem component?_of_isMarked {segment : String} (h : isMarked segment = true) :
    component? segment = some (.normal segment) := by
  have hne : ∀ other : String, isMarked other = false → segment ≠ other := by
    rintro other hother rfl
    rw [h] at hother
    cases hother
  simp [component?, hne "" rfl, hne "." rfl, hne ".." rfl]

/-- The mark is read off the first step. -/
theorem isMarked_iff (path : String) :
    isMarked path = true ↔
      ∃ name, (components path).head? = some (.normal name) ∧ isMarked name = true := by
  rw [isMarked_iff_segment]
  obtain ⟨first, rest, hsegments⟩ := List.exists_cons_of_ne_nil (segments_ne_nil path)
  have hslash : '/' ∉ first.toList :=
    not_mem_of_mem_segments (hsegments ▸ List.mem_cons_self)
  constructor
  · rintro ⟨first', rest', hsegments', hfirst⟩
    cases hsegments.symm.trans hsegments'
    have hread := component?_of_isMarked hfirst
    have hne : first ≠ "" ∧ first ≠ "." := by
      constructor
      · rintro rfl
        cases hread
      · rintro rfl
        cases hread
    have habsolute : isAbsolute path = false := by
      rw [← intercalate_segments path, hsegments]
      exact isAbsolute_intercalate hne.1 hslash rest
    refine ⟨first, ?_, hfirst⟩
    simp [components, habsolute, hsegments, hne.2, hread]
  · rintro ⟨name, hhead, hname⟩
    refine ⟨first, rest, hsegments, ?_⟩
    have habsolute : isAbsolute path = false := by
      by_contra habsolute
      rw [(head?_components path).mpr (by simpa using habsolute)] at hhead
      cases hhead
    have hempty : first ≠ "" := by
      rintro rfl
      rw [← intercalate_segments path, hsegments] at habsolute hhead
      cases rest with
      | nil => cases hhead
      | cons second rest =>
          rw [String.intercalate_cons_cons, String.append_assoc] at habsolute
          simp [isAbsolute] at habsolute
    have hdot : first ≠ "." := by
      rintro rfl
      simp [components, habsolute, hsegments] at hhead
    by_cases hup : first = ".."
    · simp [components, habsolute, hsegments, component?, hup] at hhead
    · have hfirst : first = name := by
        simpa [components, habsolute, hsegments, component?, hempty, hdot, hup] using hhead
      rw [hfirst]
      exact hname

theorem isExternal_congr {a b : ModuleId} (h : a.same b = true) : a.isExternal = b.isExternal := by
  rw [Bool.eq_iff_iff]
  unfold isExternal
  rw [isMarked_iff, isMarked_iff, same_iff.mp h]

theorem isExternal_external (name : String) : (external name).isExternal = true := by
  have hmark : isMarked externalMark = true := rfl
  exact isMarked_append hmark name

end ModuleId

/-! ### Files that are looked up -/

namespace SourceFiles

/-- A file is the one that some path in normal form stands for. -/
def Finds (files : SourceFiles) (path : String) : Prop :=
  ∃ candidate, files.lookup? (clean candidate) = some path

/-- Cleaning marks no file that is looked up.  The index file of a directory is the one that is not
found in normal form, and only if the directory is the current one. -/
theorem isMarked_clean_of_finds
    {files : SourceFiles}
    {path : String}
    (h : files.Finds path)
    (hmark : ModuleId.isMarked path = false) :
    ModuleId.isMarked (clean path) = false := by
  obtain ⟨candidate, hlookup⟩ := h
  rcases Graph.cases_of_lookup? hlookup with rfl | ⟨e, he, rfl⟩ | ⟨e, he, rfl⟩
  · rw [clean_clean]
    exact hmark
  · obtain ⟨hslash, c, hc, hdot⟩ := Graph.piece_of_mem_extensions he
    rw [clean_append_text]
    · exact hmark
    · simpa using hslash
    · exact ⟨c, by simp [hc], hdot⟩
  · have hname : isAbsolute ("index." ++ e) = false ∧
        components ("index." ++ e) = [.normal ("index." ++ e)] ∧
        ModuleId.isMarked ("index." ++ e) = false := by
      have he : e = "js" ∨ e = "mjs" := by simpa [extensions] using he
      rcases he with rfl | rfl
      · decide
      · decide
    obtain ⟨habsolute, hcomponents, hunmarked⟩ := hname
    have hsteps : normalize (components (join (clean candidate) ("index." ++ e))) =
        normalize (components (clean candidate)) ++ [.normal ("index." ++ e)] := by
      rw [normalize_join habsolute, hcomponents, normalize_append_normal]
    by_contra hclean
    obtain ⟨first, hhead, hfirst⟩ := (ModuleId.isMarked_iff _).mp (by simpa using hclean)
    rw [components_clean (by simp [hsteps]), hsteps] at hhead
    by_cases hnil : normalize (components (clean candidate)) = []
    · rw [hnil] at hhead
      cases hhead
      rw [hfirst] at hunmarked
      cases hunmarked
    · rw [List.head?_append_of_ne_nil _ hnil, ← components_clean hnil, clean_clean] at hhead
      have hdirectory : ModuleId.isMarked (clean candidate) = true :=
        (ModuleId.isMarked_iff _).mpr ⟨first, hhead, hfirst⟩
      rw [join_eq habsolute, ModuleId.isMarked_append (ModuleId.isMarked_append hdirectory _)]
        at hmark
      cases hmark

end SourceFiles

namespace Graph

variable {g g' : Graph}

theorem finds_of_resolution?
    {specifier path : String}
    {importer : ModuleId}
    (h : g.resolution? specifier importer = some (.file path)) :
    g.files.Finds path := by
  obtain ⟨r, -, hr⟩ := List.exists_of_findSome?_eq_some h
  cases r with
  | relative =>
      simp only [Resolver.resolve?] at hr
      split at hr
      · obtain ⟨found, hfound, ⟨⟩⟩ := Option.map_eq_some_iff.mp hr
        exact ⟨_, hfound⟩
      · cases hr
  | external whitelist => simp [Resolver.resolve?] at hr

/-- The files of all modules were looked up. -/
def LookedUp (g : Graph) : Prop :=
  ∀ m ∈ g.modules, ∀ path, m.path = some path → g.files.Finds path

theorem Runs.lookedUp
    {depth : Nat}
    {task : Task}
    {out : Except GraphError ModuleId}
    (h : Runs depth task g out g')
    (hleads : g.Leads g.files.Finds task)
    (hg : g.LookedUp) :
    g'.LookedUp := by
  unfold LookedUp
  rw [h.sameGround.files]
  refine h.within ?_ ⟨rfl, rfl, rfl⟩ hleads hg
  rintro path other - ⟨id, m, source, -, -, -, hother⟩
  exact finds_of_resolution? hother

theorem Reached.lookedUp (h : g.Reached) : g.LookedUp := by
  induction h with
  | empty root files resolvers => simp [LookedUp, Graph.empty]
  | @addEntry g _ path ih =>
      show Ends (Graph.addEntry path) g fun _ => LookedUp
      apply Ends.get
      split
      · exact Ends.throw ih
      · rename_i file hfile
        have hfinds : g.files.Finds file := ⟨_, hfile⟩
        apply (runs_loadLocal g.loadingDepth file g).bind
        · intro e g' hruns
          exact hruns.lookedUp hfinds ih
        · intro id g' hruns
          have hg' := hruns.lookedUp hfinds ih
          apply Ends.modify
          apply Ends.pure
          split
          · exact hg'
          · exact hg'
  | @resolveModule g _ specifier importer ih =>
      have hruns := runs_resolveModule specifier importer g
      exact Runs.lookedUp hruns (fun path => finds_of_resolution?) ih

/-- No entry is noted twice. -/
theorem Reached.pairwise_entries (h : g.Reached) :
    g.entries.Pairwise fun a b => a.same b = false := by
  refine Reached.invariant (P := fun g => g.entries.Pairwise fun a b => a.same b = false)
    ?_ ?_ h
  · intro root files resolvers
    exact .nil
  · intro g g' hg hchange
    cases hchange with
    | load hid hnew hread => exact hg
    | provide hnew => exact hg
    | link id specifier dependency => exact hg
    | settle id => exact hg
    | enter id =>
        split
        · exact hg
        · rename_i hnew
          apply List.pairwise_append.mpr
          refine ⟨hg, List.pairwise_singleton _ _, ?_⟩
          intro other hother new hnew'
          rw [List.mem_singleton.mp hnew', ModuleId.same_comm]
          simp only [ModuleId.isAmong, List.any_eq_true, not_exists, not_and] at hnew
          simpa using hnew other hother

/-! ### Modules -/

theorem analyze_congr
    {file other text : String}
    {catalog : Catalog}
    (h : analyze file text = .ok catalog) :
    analyze other text = .ok catalog := by
  unfold analyze parseModule at *
  cases hparse : Syntax.Program.parse text with
  | error e =>
      rw [hparse] at h
      cases h
  | ok program =>
      rw [hparse] at h
      exact h

/-- A file is also read under its clean path. -/
theorem read?_clean (files : SourceFiles) (path : String) :
    files.read? (clean path) = files.read? path := by
  unfold SourceFiles.read? SourceFiles.get?
  rw [clean_join_clean]

section Modules

variable {m : GraphModule}

/-- A file that is looked up is not taken for a module of the host. -/
theorem isExternal_of_ofPath
    {path : String}
    {id : ModuleId}
    (hfinds : g.files.Finds path)
    (hid : ModuleId.ofPath path = .ok id) :
    id.isExternal = false := by
  have hmark : ModuleId.isMarked path = false := by
    unfold ModuleId.ofPath at hid
    split at hid
    · cases hid
    · split at hid
      · cases hid
      · rename_i hmark
        simpa using hmark
  rw [ModuleId.eq_of_ofPath hid]
  exact SourceFiles.isMarked_clean_of_finds hfinds hmark

/-- The mark of an identity tells whether the host provides the module. -/
theorem Genuine.isExternal_id
    (h : g.Genuine m)
    (hfinds : ∀ path, m.path = some path → g.files.Finds path) :
    m.id.isExternal = m.external := by
  cases h with
  | external name => exact ModuleId.isExternal_external name
  | @loaded path id m links rest done hid hread hsources htargets hdone =>
      obtain ⟨name, text, catalog, -, -, -, rfl⟩ := readModule_eq_ok hread
      exact isExternal_of_ofPath (hfinds path rfl) hid

theorem Genuine.eq_ofExternal
    (h : g.Genuine m)
    (hexternal : m.external = true) :
    m = .ofExternal m.name := by
  cases h with
  | external name => rfl
  | loaded hid hread hsources htargets hdone =>
      obtain ⟨name, text, catalog, -, -, -, rfl⟩ := readModule_eq_ok hread
      cases hexternal

/-- The linked sources of a module are its first ones, and all of them if it is resolved. -/
theorem Genuine.sources
    (h : g.Genuine m)
    (hexternal : m.external = false) :
    m.dependencies.map Prod.fst <+: m.catalog.sources ∧
      (m.resolved = true → m.dependencies.map Prod.fst = m.catalog.sources) := by
  cases h with
  | external name => cases hexternal
  | @loaded path id m links rest done hid hread hsources htargets hdone =>
      obtain ⟨name, text, catalog, -, -, -, rfl⟩ := readModule_eq_ok hread
      constructor
      · exact ⟨rest, hsources.symm⟩
      · intro hresolved
        have hsources : catalog.sources = links.map Prod.fst ++ rest := hsources
        rw [hdone hresolved, List.append_nil] at hsources
        exact hsources.symm

/-- The catalog of a module is that of the text at its identity. -/
theorem Genuine.analysed
    (h : g.Genuine m)
    (hexternal : m.external = false) :
    g.files.read? m.id.path = some m.text ∧ analyze m.id.path m.text = .ok m.catalog := by
  cases h with
  | external name => cases hexternal
  | @loaded path id m links rest done hid hread hsources htargets hdone =>
      obtain ⟨name, text, catalog, -, htext, hcatalog, rfl⟩ := readModule_eq_ok hread
      show g.files.read? id.path = some text ∧ analyze id.path text = .ok catalog
      rw [ModuleId.eq_of_ofPath hid]
      constructor
      · rw [read?_clean, htext]
      · exact analyze_congr hcatalog

end Modules

/-- What holds of a graph between any two calls. -/
structure Consistent (g : Graph) : Prop where
  stored : ∀ m ∈ g.modules, g.module? m.id = some m
  linked : ∀ m ∈ g.modules, ∀ link ∈ m.dependencies, ∃ d, g.module? link.2 = some d
  entered : ∀ id ∈ g.entries, ∃ m, g.module? id = some m
  entries : g.entries.Pairwise fun a b => a.same b = false
  external : ∀ m ∈ g.modules, m.external = true ↔ m.id.isExternal = true
  provided : ∀ m ∈ g.modules, m.external = true →
    m.resolved = true ∧ m.dependencies = [] ∧ m.path = none ∧ m.text = "" ∧ m.catalog = .empty
  sources : ∀ m ∈ g.modules, m.external = false →
    m.dependencies.map Prod.fst <+: m.catalog.sources ∧
      (m.resolved = true → m.dependencies.map Prod.fst = m.catalog.sources)
  analysed : ∀ m ∈ g.modules, m.external = false →
    g.files.read? m.id.path = some m.text ∧ analyze m.id.path m.text = .ok m.catalog

/-- Calls, whether they fail or not, leave a consistent graph. -/
theorem consistent_of_reached {g : Graph} (h : g.Reached) : g.Consistent where
  stored := fun _ => h.coherent.module?_of_mem
  linked := h.coherent.linked
  entered := h.coherent.entered
  entries := h.pairwise_entries
  external := by
    intro m hm
    rw [(h.coherent.genuine m hm).isExternal_id (h.lookedUp m hm)]
  provided := by
    intro m hm hexternal
    rw [(h.coherent.genuine m hm).eq_ofExternal hexternal]
    exact ⟨rfl, rfl, rfl, rfl, rfl⟩
  sources := fun m hm => (h.coherent.genuine m hm).sources
  analysed := fun m hm => (h.coherent.genuine m hm).analysed

/-- One entry is loaded; another file imports it, a module of the host and a file that is not
there. -/
def brokenImport : Graph :=
  after (addEntry "a")
    (.empty "/p"
      (.ofTexts
        [("/p/main.js", "import 'dep';\nimport './a';\nimport './gone';\n"),
          ("/p/a.js", "export var x = 1;\n")])
      (Resolver.defaults []))

theorem consistent_of_reached_brokenImport :
    (outcome (addEntry "main") brokenImport = .error (.unresolvedImport "./gone" "main") ∧
      (after (addEntry "main") brokenImport).entries = [⟨"/p/a.js"⟩] ∧
      ((after (addEntry "main") brokenImport).modules.map fun m =>
        (m.id.path, m.external, m.resolved, m.dependencies)) =
          [("/p/a.js", false, true, []),
            ("/p/main.js", false, false, [("dep", ⟨"external:dep"⟩), ("./a", ⟨"/p/a.js"⟩)]),
            ("external:dep", true, true, [])]) ∧
    (after (addEntry "main") brokenImport).Consistent := by
  have hreached : brokenImport.Reached := .addEntry (.empty _ _ _) "a"
  exact ⟨by decide +kernel, consistent_of_reached (hreached.addEntry "main")⟩

end Graph
end EsModules
