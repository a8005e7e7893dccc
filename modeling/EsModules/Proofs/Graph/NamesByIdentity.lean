import EsModules.Proofs.Graph.RegistryKeys

/-!
# Names and identities

A module is known by its clean path, but it is named by the path under which its file was looked up.
The two have the same steps and so give the same name, with one exception: the index file of the
current directory is found as `./index.js`, and below the root `.` the dot becomes a part of its
name.  A graph that reaches the file by its own path calls it `index` (`name_by_identity_iff`).
-/

namespace EsModules

open EsModules.Path

/-! ### Paths under which files are found -/

/-- A name depends on the steps of a path only. -/
theorem registrationName?_congr
    (root : String)
    {first second : String}
    (h : components first = components second) :
    registrationName? root first = registrationName? root second := by
  have hstem : fileStem? first = fileStem? second := by
    simp only [fileStem?, fileName?, h]
  have hparent : parent? first = parent? second := by
    simp only [parent?, h]
  rw [registrationName?_eq, registrationName?_eq, relative?, relative?]
  split
  · simp only [Option.bind_some, h, hstem, hparent]
  · simp only [below?, h]

/-- The path is that of the index file of the current directory, as it is looked up. -/
def CurrentIndex (path : String) : Prop :=
  ∃ e ∈ SourceFiles.extensions, path = "./index." ++ e

/-- A file that is found has a path in normal form, unless it is the index file of the current
directory. -/
theorem components_clean_of_finds
    {files : SourceFiles}
    {path : String}
    (h : files.Finds path)
    (hindex : ¬CurrentIndex path) :
    components (clean path) = components path := by
  obtain ⟨candidate, hlookup⟩ := h
  rcases Graph.cases_of_lookup? hlookup with rfl | ⟨e, he, rfl⟩ | ⟨e, he, rfl⟩
  · rw [clean_clean]
  · obtain ⟨hslash, c, hc, hdot⟩ := Graph.piece_of_mem_extensions he
    rw [clean_append_text]
    · simpa using hslash
    · exact ⟨c, by simp [hc], hdot⟩
  · have habsolute : isAbsolute ("index." ++ e) = false :=
      isAbsolute_append (by decide) (by decide) e
    by_cases hnil : normalize (components candidate) = []
    · rw [clean_of_normalize_nil hnil] at hindex
      exact absurd ⟨e, he, by rw [join_eq habsolute]; rfl⟩ hindex
    · have hname : Component.Inner (.normal ("index." ++ e)) := by
        obtain ⟨hslash, c, hc, hdot⟩ := Graph.piece_of_mem_extensions he
        exact inner_normal (by simpa using hslash) ⟨c, by simp [hc], hdot⟩
      have hsteps : components (join (clean candidate) ("index." ++ e)) =
          normalize (components candidate) ++ [.normal ("index." ++ e)] := by
        have hsegments := segments_of_inner (by simp) (List.forall_mem_singleton.mpr hname)
        have hread := filterMap_of_inner (List.forall_mem_singleton.mpr hname)
        rw [← hsegments] at hread
        rw [components_join (clean_ne_empty candidate) habsolute, components_clean hnil]
        exact congrArg _ hread
      have hnormal : Normal (components (join (clean candidate) ("index." ++ e))) := by
        rw [hsteps]
        exact (normal_normalize (wellFormed_components candidate)).concat hname
      have hclean := hnormal.normalize_eq
      rw [components_clean, hclean]
      rw [hclean, hsteps]
      simp

/-- The names that the index file of the current directory has below a root: none, or one for each
of its two paths. -/
theorem names_of_currentIndex
    {root path name : String}
    (hindex : CurrentIndex path)
    (hname : registrationName? (clean root) path = some name) :
    name = "./index" ∧ registrationName? (clean root) (clean path) = some "index" := by
  have hroot : clean root = "." := by
    by_contra hroot
    have hnil : normalize (components root) ≠ [] := fun hnil => hroot (clean_of_normalize_nil hnil)
    obtain ⟨outer, last, hsteps, -, -⟩ := steps_of_registrationName? hname
    have hnormal := normal_normalize (wellFormed_components root)
    have hcurrent : (components path).head? = some .current := by
      obtain ⟨e, he, rfl⟩ := hindex
      have he : e = "js" ∨ e = "mjs" := by simpa [SourceFiles.extensions] using he
      rcases he with rfl | rfl <;> decide
    have hfront : rootSteps (clean root) = normalize (components root) := by
      rw [rootSteps, if_neg, components_clean hnil]
      rw [Bool.or_eq_true, beq_iff_eq, beq_iff_eq, components_clean hnil]
      rintro (hempty | hdot)
      · exact clean_ne_empty root hempty
      · exact hnormal.current_not_mem (hdot ▸ List.mem_cons_self)
    rw [hsteps, hfront, List.append_assoc, List.head?_append_of_ne_nil _ hnil] at hcurrent
    exact hnormal.current_not_mem (List.mem_of_head? hcurrent)
  rw [hroot] at hname ⊢
  obtain ⟨e, he, rfl⟩ := hindex
  have he : e = "js" ∨ e = "mjs" := by simpa [SourceFiles.extensions] using he
  have hnames : registrationName? "." ("./index." ++ e) = some "./index" ∧
      registrationName? "." (clean ("./index." ++ e)) = some "index" := by
    rcases he with rfl | rfl <;> decide
  exact ⟨Option.some.inj (hname.symm.trans hnames.1), hnames.2⟩

/-! ### Names in a graph -/

namespace Graph

variable {g : Graph} {m : GraphModule}

/-- The module was found as the index file of the current directory. -/
def FoundInCurrent (m : GraphModule) : Prop :=
  ∃ path, m.path = some path ∧ CurrentIndex path

/-- The name of a module, by its identity and by the way in which it was found. -/
theorem Reached.name_cases
    (hg : g.Reached)
    (hm : m ∈ g.modules)
    (hlocal : m.external = false) :
    (¬FoundInCurrent m ∧ registrationName? g.root m.id.path = some m.name) ∨
      (FoundInCurrent m ∧ m.name = "./index" ∧
        registrationName? g.root m.id.path = some "index") := by
  cases (hg.coherent.genuine m hm).origin with
  | external hm' =>
      rw [hm'] at hlocal
      cases hlocal
  | @file path _ hpath hid hname =>
      have hfound : FoundInCurrent m ↔ CurrentIndex path := by
        simp [FoundInCurrent, hpath]
      rw [hfound, hid]
      by_cases hindex : CurrentIndex path
      · obtain ⟨root, hroot⟩ := hg.exists_root
        rw [hroot] at hname ⊢
        exact .inr ⟨hindex, names_of_currentIndex hindex hname⟩
      · have hsteps := components_clean_of_finds (hg.lookedUp m hm path hpath) hindex
        exact .inl ⟨hindex, by rw [registrationName?_congr g.root hsteps, hname]⟩

/-- The name of a local module is the one that its identity gives, if and only if the module was not
found as the index file of the current directory.  Two graphs with the same root give a file the
same name, if and only if both have found it so or none of them has. -/
theorem name_by_identity_iff
    (g : Graph)
    (hg : g.Reached)
    (m : GraphModule)
    (hm : m ∈ g.modules)
    (hlocal : m.external = false) :
    (registrationName? g.root m.id.path = some m.name ↔ ¬FoundInCurrent m) ∧
    ∀ g' : Graph, g'.Reached → g'.root = g.root →
      ∀ m' ∈ g'.modules, m'.external = false → m'.id.same m.id = true →
        (m'.name = m.name ↔ (FoundInCurrent m' ↔ FoundInCurrent m)) := by
  have hnames : "index" ≠ "./index" := by decide
  have hcases := hg.name_cases hm hlocal
  constructor
  · rcases hcases with ⟨hfound, hname⟩ | ⟨hfound, hname, hidentity⟩
    · exact iff_of_true hname hfound
    · apply iff_of_false _ (not_not_intro hfound)
      rw [hidentity, hname, Option.some_inj]
      exact hnames
  · intro g' hg' hroot m' hm' hlocal' hsame
    have hcases' := hg'.name_cases hm' hlocal'
    rw [hroot, registrationName?_congr g.root (ModuleId.same_iff.mp hsame)] at hcases'
    rcases hcases with ⟨hfound, hname⟩ | ⟨hfound, hname, hidentity⟩
    · rcases hcases' with ⟨hfound', hname'⟩ | ⟨hfound', hname', hidentity'⟩
      · exact iff_of_true (Option.some.inj (hname'.symm.trans hname)) (iff_of_false hfound' hfound)
      · have hindex : "index" = m.name := Option.some.inj (hidentity'.symm.trans hname)
        rw [hname', ← hindex]
        exact iff_of_false hnames.symm fun h => hfound (h.mp hfound')
    · rcases hcases' with ⟨hfound', hname'⟩ | ⟨hfound', hname', hidentity'⟩
      · have hindex : "index" = m'.name := Option.some.inj (hidentity.symm.trans hname')
        rw [hname, ← hindex]
        exact iff_of_false hnames fun h => hfound' (h.mpr hfound)
      · exact iff_of_true (hname'.trans hname.symm) (iff_of_true hfound' hfound)

/-- A module that imports the current directory, with an index file in it. -/
def dottedDirectory : Graph :=
  .empty "."
    (.ofTexts [("main.js", "import '.';\n"), ("index.js", "export var x = 1;\n")])
    (Resolver.defaults [])

theorem modules_dottedDirectory :
    ((after (addEntry "index") dottedDirectory).modules.map fun m =>
      (m.id.path, m.external, m.path, m.name)) = [("index.js", false, some "index.js", "index")] ∧
    ((after (addEntry "main") dottedDirectory).modules.map fun m =>
      (m.id.path, m.external, m.path, m.name)) =
        [("main.js", false, some "main.js", "main"),
          ("index.js", false, some "./index.js", "./index")] := by
  decide +kernel

/-- The index file is an entry of one graph, and another one finds it by its directory. -/
theorem name_by_identity_iff_dottedDirectory :
    ∃ m ∈ (after (addEntry "index") dottedDirectory).modules,
      registrationName? "." m.id.path = some m.name ∧
      ∃ m' ∈ (after (addEntry "main") dottedDirectory).modules,
        m'.id = m.id ∧ FoundInCurrent m' ∧ m'.name ≠ m.name := by
  obtain ⟨hdirect, hdotted⟩ := modules_dottedDirectory
  have hmem : ("index.js", false, some "index.js", "index") ∈
      (after (addEntry "index") dottedDirectory).modules.map fun m =>
        (m.id.path, m.external, m.path, m.name) := by
    simp [hdirect]
  have hmem' : ("index.js", false, some "./index.js", "./index") ∈
      (after (addEntry "main") dottedDirectory).modules.map fun m =>
        (m.id.path, m.external, m.path, m.name) := by
    simp [hdotted]
  obtain ⟨m, hm, hfacts⟩ := List.mem_map.mp hmem
  obtain ⟨m', hm', hfacts'⟩ := List.mem_map.mp hmem'
  simp only [Prod.mk.injEq] at hfacts hfacts'
  have hid : m'.id = m.id := congrArg ModuleId.mk (hfacts'.1.trans hfacts.1.symm)
  have hfound' : FoundInCurrent m' := ⟨_, hfacts'.2.2.1, "js", by decide, rfl⟩
  have hfound : ¬FoundInCurrent m := by
    rintro ⟨path, hpath, e, he, rfl⟩
    rw [hfacts.2.2.1] at hpath
    have hhead := congrArg (fun path => path.toList.head?) (Option.some.inj hpath)
    simp at hhead
  obtain ⟨hname, hothers⟩ := name_by_identity_iff (after (addEntry "index") dottedDirectory)
    ((Reached.empty _ _ _).addEntry "index") m hm hfacts.2.1
  have hroot : (after (addEntry "index") dottedDirectory).root = "." := by decide +kernel
  have hroot' : (after (addEntry "main") dottedDirectory).root = "." := by decide +kernel
  rw [hroot] at hname hothers
  refine ⟨m, hm, hname.mpr hfound, m', hm', hid, hfound', ?_⟩
  intro hsame
  apply hfound
  exact ((hothers _ ((Reached.empty _ _ _).addEntry "main") hroot' m' hm' hfacts'.2.1
    (by rw [hid]; exact ModuleId.same_iff.mpr rfl)).mp hsame).mp hfound'

/-- A module of a graph does not have the name that its identity gives. -/
theorem name_not_by_identity :
    (after (addEntry "main") dottedDirectory).Reached ∧
    ∃ m ∈ (after (addEntry "main") dottedDirectory).modules,
      m.external = false ∧ m.name = "./index" ∧
      registrationName? (after (addEntry "main") dottedDirectory).root m.id.path =
        some "index" := by
  have hmem : ("index.js", false, some "./index.js", "./index") ∈
      (after (addEntry "main") dottedDirectory).modules.map fun m =>
        (m.id.path, m.external, m.path, m.name) := by
    simp [modules_dottedDirectory.2]
  obtain ⟨m, hm, hfacts⟩ := List.mem_map.mp hmem
  simp only [Prod.mk.injEq] at hfacts
  refine ⟨(Reached.empty _ _ _).addEntry "main", m, hm, hfacts.2.1, hfacts.2.2.2, ?_⟩
  rw [hfacts.1]
  decide +kernel

end Graph
end EsModules
