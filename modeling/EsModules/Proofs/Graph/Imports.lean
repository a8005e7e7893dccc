import EsModules.Proofs.Graph.Coherence
import EsModules.Proofs.Path

/-!
# Files and their imports

What the files below a root import, said without any graph being loaded: the module that a file
gives, the files that it imports and those that are reached from entries.  Below an absolute root
all of these are known by the normal forms of their paths.
-/

namespace EsModules
namespace Graph

open EsModules.Path

variable {g g' : Graph}

/-- The file that an entry stands for. -/
def entryFile? (g : Graph) (entry : String) : Option String :=
  g.files.lookup? (clean (join g.root entry))

/-- The module of a file, with all its imports linked. -/
def moduleOf? (g : Graph) (path : String) : Option GraphModule := do
  let id ← (ModuleId.ofPath path).toOption
  let m ← (g.readModule id path).toOption
  let links ← m.catalog.sources.mapM fun source => do
    return (source, ← g.target? id source)
  return m.advance links true

/-- A file imports another one. -/
def Imports (g : Graph) (path other : String) : Prop :=
  ∃ id m source,
    ModuleId.ofPath path = .ok id ∧
    g.readModule id path = .ok m ∧
    source ∈ m.catalog.sources ∧
    g.resolution? source id = some (.file other)

/-- A file is reached from entries along imports. -/
def FromEntries (g : Graph) (entries : List String) (path : String) : Prop :=
  ∃ entry ∈ entries, ∃ file,
    g.entryFile? entry = some file ∧ Relation.ReflTransGen g.Imports file path

/-! ### Modules of files -/

theorem mapM_target?_eq_some
    {id : ModuleId}
    {sources : List String}
    {links : List (String × ModuleId)} :
    (sources.mapM fun source => do return (source, ← g.target? id source)) = some links ↔
      sources = links.map Prod.fst ∧ ∀ link ∈ links, g.target? id link.1 = some link.2 := by
  induction sources generalizing links with
  | nil =>
      rw [List.mapM_nil]
      constructor
      · rintro ⟨⟩
        exact ⟨rfl, by simp⟩
      · rintro ⟨hlinks, -⟩
        rw [List.map_eq_nil_iff.mp hlinks.symm]
        rfl
  | cons source rest ih =>
      rw [List.mapM_cons]
      constructor
      · intro h
        obtain ⟨link, hlink, h⟩ := Option.bind_eq_some_iff.mp h
        obtain ⟨target, htarget, ⟨⟩⟩ := Option.bind_eq_some_iff.mp hlink
        obtain ⟨others, hothers, ⟨⟩⟩ := Option.bind_eq_some_iff.mp h
        obtain ⟨rfl, htargets⟩ := ih.mp hothers
        refine ⟨rfl, ?_⟩
        intro link hlink
        rcases List.mem_cons.mp hlink with rfl | hlink
        · exact htarget
        · exact htargets link hlink
      · rintro ⟨hsources, htargets⟩
        cases links with
        | nil => cases hsources
        | cons link links =>
            obtain ⟨rfl, hrest⟩ := List.cons_eq_cons.mp hsources
            have hothers := ih.mpr
              ⟨hrest, fun link hlink => htargets link (List.mem_cons_of_mem _ hlink)⟩
            apply Option.bind_eq_some_iff.mpr
            refine ⟨link, ?_, ?_⟩
            · rw [htargets link List.mem_cons_self]
              rfl
            · rw [hothers]
              rfl

theorem toOption_eq_some {ε α : Type} {result : Except ε α} {a : α} :
    result.toOption = some a ↔ result = .ok a := by
  cases result with
  | error e => simp [Except.toOption]
  | ok b => simp [Except.toOption]

theorem moduleOf?_eq_some
    {path : String}
    {m : GraphModule} :
    g.moduleOf? path = some m ↔
      ∃ id read links,
        ModuleId.ofPath path = .ok id ∧
        g.readModule id path = .ok read ∧
        read.catalog.sources = links.map Prod.fst ∧
        (∀ link ∈ links, g.target? id link.1 = some link.2) ∧
        m = read.advance links true := by
  constructor
  · intro h
    obtain ⟨id, hid, h⟩ := Option.bind_eq_some_iff.mp h
    obtain ⟨read, hread, h⟩ := Option.bind_eq_some_iff.mp h
    obtain ⟨links, hlinks, ⟨⟩⟩ := Option.bind_eq_some_iff.mp h
    obtain ⟨hsources, htargets⟩ := mapM_target?_eq_some.mp hlinks
    exact ⟨id, read, links, toOption_eq_some.mp hid, toOption_eq_some.mp hread, hsources,
      htargets, rfl⟩
  · rintro ⟨id, read, links, hid, hread, hsources, htargets, rfl⟩
    have hlinks := mapM_target?_eq_some.mpr ⟨hsources, htargets⟩
    apply Option.bind_eq_some_iff.mpr
    refine ⟨id, toOption_eq_some.mpr hid, ?_⟩
    apply Option.bind_eq_some_iff.mpr
    refine ⟨read, toOption_eq_some.mpr hread, ?_⟩
    exact Option.bind_eq_some_iff.mpr ⟨links, hlinks, rfl⟩

/-- A settled module is what its file makes it. -/
theorem Genuine.moduleOf?
    {path : String}
    {m : GraphModule}
    (h : g.Genuine m)
    (hresolved : m.resolved = true)
    (hpath : m.path = some path) :
    g.moduleOf? path = some m := by
  cases h with
  | external name => cases hpath
  | loaded hid hread hsources htargets hdone =>
      obtain ⟨name, text, catalog, hname, htext, hcatalog, rfl⟩ := readModule_eq_ok hread
      cases hpath
      have hresolved : (false || _) = true := hresolved
      rw [Bool.false_or] at hresolved
      subst hresolved
      rw [hdone rfl, List.append_nil] at hsources
      exact moduleOf?_eq_some.mpr ⟨_, _, _, hid, hread, hsources, htargets, rfl⟩

/-! ### Normal forms -/

theorem piece_of_mem_extensions
    {e : String}
    (he : e ∈ SourceFiles.extensions) :
    '/' ∉ e.toList ∧ ∃ c ∈ e.toList, c ≠ '.' := by
  have he : e = "js" ∨ e = "mjs" := by simpa [SourceFiles.extensions] using he
  rcases he with rfl | rfl
  · exact ⟨by decide, 'j', by simp, by decide⟩
  · exact ⟨by decide, 'j', by simp, by decide⟩

/-- The file that a path stands for. -/
theorem cases_of_lookup?
    {files : SourceFiles}
    {path found : String}
    (h : files.lookup? path = some found) :
    found = path ∨
      (∃ e ∈ SourceFiles.extensions, found = path ++ ("." ++ e)) ∨
      ∃ e ∈ SourceFiles.extensions, found = join path ("index." ++ e) := by
  unfold SourceFiles.lookup? at h
  cases hfile : files.withExtension? path with
  | some file =>
      rw [hfile] at h
      cases h
      unfold SourceFiles.withExtension? at hfile
      split at hfile
      · cases hfile
        exact .inl rfl
      · obtain ⟨e, he, rfl⟩ := List.mem_map.mp (List.mem_of_find?_eq_some hfile)
        refine .inr (.inl ⟨e, he, ?_⟩)
        rw [← String.append_assoc]
        rfl
  | none =>
      rw [hfile] at h
      have hindex : files.indexFile? path = some found := h
      obtain ⟨e, he, rfl⟩ := List.mem_map.mp (List.mem_of_find?_eq_some hindex)
      exact .inr (.inr ⟨e, he, rfl⟩)

/-- A file is found under a path in normal form. -/
theorem canonical_lookup?
    {files : SourceFiles}
    {path found : String}
    (hpath : Canonical path)
    (h : files.lookup? path = some found) :
    Canonical found := by
  rcases cases_of_lookup? h with rfl | ⟨e, he, rfl⟩ | ⟨e, he, rfl⟩
  · exact hpath
  · obtain ⟨hslash, c, hc, hdot⟩ := piece_of_mem_extensions he
    apply hpath.append
    · simpa using hslash
    · exact ⟨c, by simp [hc], hdot⟩
  · obtain ⟨hslash, -⟩ := piece_of_mem_extensions he
    apply hpath.join
    apply inner_normal
    · simpa using hslash
    · exact ⟨'i', by simp, by decide⟩

theorem isMarked_of_canonical
    {path : String}
    (h : Canonical path) :
    ModuleId.isMarked path = false := by
  obtain ⟨names, -, rfl⟩ := h
  unfold ModuleId.isMarked
  rw [ofComponents_names, String.toList_append]
  rfl

theorem canonical_entryFile?
    {entry file : String}
    (hroot : Canonical g.root)
    (h : g.entryFile? entry = some file) :
    Canonical file := by
  apply canonical_lookup? _ h
  apply canonical_clean
  exact isAbsolute_join hroot.isAbsolute entry

theorem canonical_resolution?
    {path other source : String}
    (hroot : Canonical g.root)
    (hpath : Canonical path)
    (h : g.resolution? source ⟨path⟩ = some (.file other)) :
    Canonical other := by
  obtain ⟨r, -, hr⟩ := List.exists_of_findSome?_eq_some h
  cases r with
  | relative =>
      simp only [Resolver.resolve?] at hr
      split at hr
      · obtain ⟨found, hfound, ⟨⟩⟩ := Option.map_eq_some_iff.mp hr
        apply canonical_lookup? _ hfound
        apply canonical_clean
        apply isAbsolute_join
        simp only [Resolver.baseDirectory, ModuleId.isExternal, isMarked_of_canonical hpath]
        cases hparent : parent? path with
        | none => exact hroot.isAbsolute
        | some directory => exact (hpath.parent? hparent).isAbsolute
      · cases hr
  | external whitelist => simp [Resolver.resolve?] at hr

theorem Imports.canonical
    {path other : String}
    (h : g.Imports path other)
    (hroot : Canonical g.root)
    (hpath : Canonical path) :
    Canonical other := by
  obtain ⟨id, m, source, hid, -, -, hother⟩ := h
  rw [ModuleId.eq_of_ofPath hid, hpath.clean_eq] at hother
  exact canonical_resolution? hroot hpath hother

theorem FromEntries.canonical
    {entries : List String}
    {path : String}
    (h : g.FromEntries entries path)
    (hroot : Canonical g.root) :
    Canonical path := by
  obtain ⟨entry, -, file, hfile, hpath⟩ := h
  induction hpath with
  | refl => exact canonical_entryFile? hroot hfile
  | tail _ hedge ih => exact hedge.canonical hroot ih

theorem FromEntries.step
    {entries : List String}
    {path other : String}
    (h : g.FromEntries entries path)
    (hedge : g.Imports path other) :
    g.FromEntries entries other := by
  obtain ⟨entry, hentry, file, hfile, hpath⟩ := h
  exact ⟨entry, hentry, file, hfile, hpath.tail hedge⟩

end Graph
end EsModules
