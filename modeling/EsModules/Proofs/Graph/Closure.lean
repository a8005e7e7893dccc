import EsModules.Proofs.Graph.Imports
import Mathlib.Data.List.Nodup
import Mathlib.Data.List.Perm.Basic

/-!
# What entries load

Below an absolute root, loading entries succeeds if and only if every file that is reached from them
can be read and linked.  The local modules are then those of the files that are reached, each as its
file makes it, whatever the order of the entries.
-/

namespace EsModules
namespace Graph

open EsModules.Path

variable {g g' ground : Graph} {depth : Nat} {task : Task} {out : Except GraphError ModuleId}

/-- The modules that have a file. -/
def localModules (g : Graph) : List GraphModule :=
  g.modules.filter fun m => !m.external

/-! ### Tasks -/

theorem Runs.sameGround (h : Runs depth task g out g') : SameGround g g' := by
  induction h with
  | exhausted => exact ⟨rfl, rfl, rfl⟩
  | refused => exact ⟨rfl, rfl, rfl⟩
  | cached => exact ⟨rfl, rfl, rfl⟩
  | unreadable => exact ⟨rfl, rfl, rfl⟩
  | load _ _ _ _ ih => exact ⟨ih.root, ih.files, ih.resolvers⟩
  | unresolved => exact ⟨rfl, rfl, rfl⟩
  | provided => exact ⟨rfl, rfl, rfl⟩
  | provide => exact ⟨rfl, rfl, rfl⟩
  | file _ _ ih => exact ih
  | settle => exact ⟨rfl, rfl, rfl⟩
  | blocked _ ih => exact ih
  | link _ _ ih ih' => exact ih.trans ⟨ih'.root, ih'.files, ih'.resolvers⟩

/-- The files that a task goes on to load have a property. -/
def Leads (g : Graph) (P : String → Prop) : Task → Prop
  | .load path => P path
  | .resolve source importer => ∀ path, g.resolution? source importer = some (.file path) → P path
  | .link id sources =>
      ∀ source ∈ sources, ∀ path, g.resolution? source id = some (.file path) → P path

/-- A property that imports keep holds of all files that a task loads. -/
theorem Runs.within
    {P : String → Prop}
    (h : Runs depth task g out g')
    (hclosed : ∀ path other, P path → ground.Imports path other → P other)
    (hground : SameGround ground g)
    (hleads : ground.Leads P task)
    (hg : ∀ m ∈ g.modules, ∀ path, m.path = some path → P path) :
    ∀ m ∈ g'.modules, ∀ path, m.path = some path → P path := by
  have hupdate : ∀ (g : Graph) (id : ModuleId) (f : GraphModule → GraphModule),
      (∀ m, (f m).path = m.path) →
      (∀ m ∈ g.modules, ∀ path, m.path = some path → P path) →
      ∀ m ∈ (updateModule id f g).modules, ∀ path, m.path = some path → P path := by
    intro g id f hf hg m hm path hpath
    obtain ⟨old, hold, rfl⟩ := List.mem_map.mp hm
    apply hg old hold
    split at hpath
    · rw [← hf old]
      exact hpath
    · exact hpath
  induction h with
  | exhausted => exact hg
  | refused => exact hg
  | cached => exact hg
  | unreadable => exact hg
  | @load depth path id m g g' out hid hnew hread hlink ih =>
      rw [hground.readModule_eq] at hread
      apply ih (hground.trans (sameGround_modules g _))
      · intro source hsource other hother
        exact hclosed path other hleads ⟨id, m, source, hid, hread, hsource, hother⟩
      · intro a ha other hother
        rcases List.mem_append.mp ha with ha | ha
        · exact hg a ha other hother
        · rw [List.mem_singleton.mp ha] at hother
          obtain ⟨_, _, _, _, _, _, rfl⟩ := readModule_eq_ok hread
          cases hother
          exact hleads
  | unresolved => exact hg
  | provided => exact hg
  | @provide depth source name importer g hto hnew =>
      intro a ha other hother
      rcases List.mem_append.mp ha with ha | ha
      · exact hg a ha other hother
      · rw [List.mem_singleton.mp ha] at hother
        cases hother
  | file hto hload ih =>
      rw [hground.resolution?_eq] at hto
      exact ih hground (hleads _ hto) hg
  | settle depth id g => exact hupdate g id _ (fun _ => rfl) hg
  | blocked hresolve ih => exact ih hground (hleads _ List.mem_cons_self) hg
  | @link depth id dependency source rest g g' g'' out hresolve hrest ih ih' =>
      have hg' := ih hground (hleads source List.mem_cons_self) hg
      apply ih' ((hground.trans hresolve.sameGround).trans (sameGround_modules g' _))
      · exact fun other hother => hleads other (List.mem_cons_of_mem _ hother)
      · exact hupdate g' id _ (fun _ => rfl) hg'

/-! ### Depth -/

/-- The number of files whose modules are not in the graph. -/
def unread (g : Graph) : Nat :=
  g.files.files.countP fun file => (g.module? ⟨file.path⟩).isNone

/-- Where no identity is lost, what is missing was missing before. -/
theorem isNone_of_ids
    {id : ModuleId}
    (hids : ∀ a ∈ g.modules, ∃ b ∈ g'.modules, b.id = a.id)
    (h : (g'.module? id).isNone = true) :
    (g.module? id).isNone = true := by
  rw [Option.isNone_iff_eq_none] at h ⊢
  by_contra hsome
  obtain ⟨m, hm⟩ := Option.ne_none_iff_exists'.mp hsome
  obtain ⟨m', hm'⟩ := exists_module?_of_ids hids hm
  rw [h] at hm'
  cases hm'

theorem unread_le
    (hfiles : g'.files = g.files)
    (hids : ∀ a ∈ g.modules, ∃ b ∈ g'.modules, b.id = a.id) :
    g'.unread ≤ g.unread := by
  unfold unread
  rw [hfiles]
  apply List.countP_mono_left
  exact fun file _ hnone => isNone_of_ids hids hnone

theorem ids_updateModule
    {id : ModuleId}
    {f : GraphModule → GraphModule}
    (hf : ∀ m, (f m).id = m.id) :
    ∀ a ∈ g.modules, ∃ b ∈ (updateModule id f g).modules, b.id = a.id := by
  intro a ha
  refine ⟨_, List.mem_map_of_mem ha, ?_⟩
  split
  · exact hf a
  · rfl

/-- A file whose module is added is not counted any more. -/
theorem unread_addModule_lt_of_mem
    {file : SourceFile}
    {m : GraphModule}
    (hfile : file ∈ g.files.files)
    (hnew : g.module? ⟨file.path⟩ = none)
    (hid : m.id = ⟨file.path⟩) :
    (addModule m g).unread < g.unread := by
  have hids : ∀ a ∈ g.modules, ∃ b ∈ (addModule m g).modules, b.id = a.id :=
    fun a ha => ⟨a, List.mem_append_left _ ha, rfl⟩
  apply countP_lt_countP _ hfile
  · rw [hnew]
    rfl
  · obtain ⟨found, hfound⟩ : ∃ found, (addModule m g).module? ⟨file.path⟩ = some found := by
      apply exists_module?_iff.mpr
      refine ⟨m, by simp [addModule], ?_⟩
      rw [hid]
      exact ModuleId.same_iff.mpr rfl
    rw [hfound]
    rfl
  · exact fun other hother => isNone_of_ids hids hother

/-- A file that is read into the graph is not counted any more. -/
theorem unread_addModule_lt
    {path : String}
    {id : ModuleId}
    {m : GraphModule}
    (hpath : Canonical path)
    (hid : ModuleId.ofPath path = .ok id)
    (hnew : g.module? id = none)
    (hread : g.readModule id path = .ok m) :
    (addModule m g).unread < g.unread := by
  have hpathId : id = ⟨path⟩ := by rw [ModuleId.eq_of_ofPath hid, hpath.clean_eq]
  obtain ⟨name, text, catalog, -, htext, -, hm⟩ := readModule_eq_ok hread
  obtain ⟨file, hfile, -⟩ := Option.bind_eq_some_iff.mp htext
  have hfilePath : file.path = path := by
    have hfound := List.find?_some hfile
    rw [beq_iff_eq, join, if_pos hpath.isAbsolute, hpath.clean_eq] at hfound
    exact hfound
  apply unread_addModule_lt_of_mem (List.mem_of_find?_eq_some hfile)
  · rw [hfilePath, ← hpathId, hnew]
  · rw [hfilePath, ← hpathId, id_of_readModule hread]

/-! ### Success -/

/-- The imports that a task goes on to link have targets. -/
def Linkable (g : Graph) : Task → Prop
  | .load _ => True
  | .resolve source importer => ∃ target, g.target? importer source = some target
  | .link id sources => ∀ source ∈ sources, ∃ target, g.target? id source = some target

/-- A property of files that imports keep, and that only files have whose modules can be read and
linked. -/
structure Sound (g : Graph) (P : String → Prop) : Prop where
  closed : ∀ path other, P path → g.Imports path other → P other
  canonical : ∀ path, P path → Canonical path
  readable : ∀ path, P path → ∃ m, g.moduleOf? path = some m

theorem Sound.link
    {P : String → Prop}
    {path : String}
    {id : ModuleId}
    {m : GraphModule}
    (h : g.Sound P)
    (hpath : P path)
    (hid : ModuleId.ofPath path = .ok id)
    (hread : g.readModule id path = .ok m) :
    g.Leads P (.link id m.catalog.sources) ∧ g.Linkable (.link id m.catalog.sources) := by
  constructor
  · intro source hsource other hother
    exact h.closed path other hpath ⟨id, m, source, hid, hread, hsource, hother⟩
  · obtain ⟨whole, hwhole⟩ := h.readable path hpath
    obtain ⟨id', m', links, hid', hread', hsources, htargets, -⟩ := moduleOf?_eq_some.mp hwhole
    rw [hid] at hid'
    cases hid'
    rw [hread] at hread'
    cases hread'
    intro source hsource
    rw [hsources] at hsource
    obtain ⟨link, hlink, rfl⟩ := List.mem_map.mp hsource
    exact ⟨link.2, htargets link hlink⟩

/-- Where all files can be read and linked, a task does not fail. -/
theorem Runs.succeeds
    {P : String → Prop}
    (h : Runs depth task g out g')
    (hsound : ground.Sound P)
    (hground : SameGround ground g)
    (hleads : ground.Leads P task)
    (hlinkable : ground.Linkable task)
    (hdepth : g.unread < depth) :
    out.isOk = true := by
  induction h with
  | exhausted => exact absurd hdepth (Nat.not_lt_zero _)
  | refused hid =>
      obtain ⟨m, hm⟩ := hsound.readable _ hleads
      obtain ⟨id, _, _, hid', -⟩ := moduleOf?_eq_some.mp hm
      rw [hid] at hid'
      cases hid'
  | cached => rfl
  | unreadable hid hnew hread =>
      obtain ⟨m, hm⟩ := hsound.readable _ hleads
      obtain ⟨id, _, _, hid', hread', -⟩ := moduleOf?_eq_some.mp hm
      rw [hid] at hid'
      cases hid'
      rw [hground.readModule_eq, hread'] at hread
      cases hread
  | @load depth path id m g g' out hid hnew hread hlink ih =>
      have hfewer := unread_addModule_lt (hsound.canonical path hleads) hid hnew hread
      rw [hground.readModule_eq] at hread
      obtain ⟨hleads, hlinkable⟩ := hsound.link hleads hid hread
      exact ih (hground.trans (sameGround_modules g _)) hleads hlinkable (by omega)
  | unresolved hto =>
      obtain ⟨target, htarget⟩ := hlinkable
      rw [hground.resolution?_eq] at hto
      rw [target?, hto] at htarget
      cases htarget
  | provided => rfl
  | provide => rfl
  | file hto hload ih =>
      rw [hground.resolution?_eq] at hto
      exact ih hground (hleads _ hto) trivial hdepth
  | settle => rfl
  | blocked hresolve ih =>
      exact ih hground (hleads _ List.mem_cons_self) (hlinkable _ List.mem_cons_self) hdepth
  | @link depth id dependency source rest g g' g'' out hresolve hrest ih ih' =>
      obtain ⟨added, hadds, -⟩ := hresolve.leaves
      have hresolved : g'.unread ≤ g.unread := by
        rw [hadds.eq]
        apply unread_le
        · rfl
        · exact fun a ha => ⟨a, List.mem_append_left _ ha, rfl⟩
      have hlinked :
          (updateModule id (fun m =>
            { m with dependencies := m.dependencies ++ [(source, dependency)] }) g').unread ≤
              g'.unread :=
        unread_le rfl (ids_updateModule fun _ => rfl)
      apply ih' ((hground.trans hresolve.sameGround).trans (sameGround_modules g' _))
      · exact fun other hother => hleads other (List.mem_cons_of_mem _ hother)
      · exact fun other hother => hlinkable other (List.mem_cons_of_mem _ hother)
      · omega

/-! ### Entries -/

/-- What loading an entry does. -/
theorem ends_addEntry
    {entry file : String}
    (hfile : g.entryFile? entry = some file) :
    Ends (addEntry entry) g fun out g' =>
      ∃ loaded,
        Runs g.loadingDepth (.load file) g out loaded ∧
        SameGround loaded g' ∧
        g'.modules = loaded.modules := by
  apply Ends.get
  have hlookup : g.files.lookup? (clean (join g.root entry)) = some file := hfile
  rw [hlookup]
  apply (runs_loadLocal g.loadingDepth file g).bind
  · intro e loaded hruns
    exact ⟨loaded, hruns, ⟨rfl, rfl, rfl⟩, rfl⟩
  · intro id loaded hruns
    apply Ends.modify
    apply Ends.pure
    refine ⟨loaded, hruns, ?_⟩
    split
    · exact ⟨⟨rfl, rfl, rfl⟩, rfl⟩
    · exact ⟨⟨rfl, rfl, rfl⟩, rfl⟩

theorem ends_addEntry_none
    {entry : String}
    (hfile : g.entryFile? entry = none) :
    Ends (addEntry entry) g fun out _ => out.isOk = false := by
  apply Ends.get
  have hlookup : g.files.lookup? (clean (join g.root entry)) = none := hfile
  rw [hlookup]
  exact Ends.throw rfl

/-- One entry is loaded, then the others. -/
theorem ends_addEntries_cons
    {entry : String}
    {rest : List String}
    {Q : Except GraphError ModuleId → Graph → Prop}
    {P : Except GraphError Unit → Graph → Prop}
    (hentry : Ends (addEntry entry) g Q)
    (hfail : ∀ e g', Q (.error e) g' → P (.error e) g')
    (hnext : ∀ id g', Q (.ok id) g' → Ends (addEntries rest) g' P) :
    Ends (addEntries (entry :: rest)) g P := by
  have hbind : addEntries (entry :: rest) = addEntry entry >>= fun _ => addEntries rest := by
    show (discard (addEntry entry) >>= fun _ => addEntries rest) = _
    have hdiscard : discard (addEntry entry) = (fun _ => ()) <$> addEntry entry := rfl
    rw [hdiscard, map_eq_pure_bind, bind_assoc]
    simp only [pure_bind]
  rw [hbind]
  exact hentry.bind hfail hnext

/-- Entries are loaded from a ground.  All files that are reached are within what the entries reach,
and each entry has its module. -/
structure Loaded (ground : Graph) (entries : List String) (g : Graph) : Prop where
  same : SameGround ground g
  coherent : g.Coherent
  resolved : ∀ m ∈ g.modules, m.resolved = true
  within : ∀ m ∈ g.modules, ∀ path, m.path = some path → ground.FromEntries entries path
  entered : ∀ entry ∈ entries, ∃ file id m,
    ground.entryFile? entry = some file ∧ ModuleId.ofPath file = .ok id ∧ g.module? id = some m

theorem SameGround.entryFile?_eq (h : SameGround g g') (entry : String) :
    g'.entryFile? entry = g.entryFile? entry := by
  unfold entryFile?
  rw [h.root, h.files]

theorem FromEntries.mono
    {entries entries' : List String}
    {path : String}
    (h : g.FromEntries entries path)
    (hentries : ∀ entry ∈ entries, entry ∈ entries') :
    g.FromEntries entries' path := by
  obtain ⟨entry, hentry, file, hfile, hpath⟩ := h
  exact ⟨entry, hentries entry hentry, file, hfile, hpath⟩

theorem Loaded.addEntry
    {entries : List String}
    (h : Loaded ground entries g)
    (entry : String) :
    Ends (addEntry entry) g fun out g' =>
      out.isOk = true → Loaded ground (entries ++ [entry]) g' := by
  cases hfile : g.entryFile? entry with
  | none =>
      apply (ends_addEntry_none hfile).mono
      intro out g' herror hok
      rw [hok] at herror
      cases herror
  | some file =>
      obtain ⟨loaded, hruns, hground, hmodules⟩ := ends_addEntry hfile
      intro hok
      obtain ⟨id, hid⟩ : ∃ id, outcome (Graph.addEntry entry) g = .ok id := by
        cases hout : outcome (Graph.addEntry entry) g with
        | error e => rw [hout] at hok; cases hok
        | ok id => exact ⟨id, rfl⟩
      have hentry : ground.entryFile? entry = some file := by
        rw [← h.same.entryFile?_eq, hfile]
      have hsame : SameGround ground loaded := h.same.trans hruns.sameGround
      obtain ⟨added, hadds, hsettled⟩ := hruns.leaves
      have hids : ∀ a ∈ g.modules, ∃ b ∈ loaded.modules, b.id = a.id := by
        intro a ha
        rw [hadds.eq]
        exact ⟨a, List.mem_append_left _ ha, rfl⟩
      have hmodule? : ∀ id, (after (Graph.addEntry entry) g).module? id = loaded.module? id := by
        intro id
        unfold module?
        rw [hmodules]
      constructor
      case same => exact hsame.trans hground
      case coherent => exact coherent_addEntry h.coherent entry
      case resolved =>
        intro m hm
        rw [hmodules, hadds.eq] at hm
        rcases List.mem_append.mp hm with hm | hm
        · exact h.resolved m hm
        · exact hsettled hok m hm
      case within =>
        rw [hmodules]
        apply hruns.within (P := ground.FromEntries (entries ++ [entry]))
          (fun path other hpath hedge => hpath.step hedge) h.same
        · exact ⟨entry, by simp, file, hentry, .refl⟩
        · intro m hm path hpath
          exact (h.within m hm path hpath).mono (by simp +contextual)
      case entered =>
        intro other hother
        rcases List.mem_append.mp hother with hother | hother
        · obtain ⟨file', id', m', hfile', hid', hm'⟩ := h.entered other hother
          obtain ⟨m'', hm''⟩ := exists_module?_of_ids hids hm'
          exact ⟨file', id', m'', hfile', hid', (hmodule? id').trans hm''⟩
        · rw [List.mem_singleton.mp hother]
          obtain ⟨-, hanswers⟩ := hruns.coherent h.coherent trivial
          obtain ⟨hid', m', hm'⟩ := hanswers id hid
          exact ⟨file, id, m', hentry, hid', (hmodule? id).trans hm'⟩

theorem Loaded.addEntries
    {done : List String}
    (h : Loaded ground done g)
    (entries : List String) :
    Ends (addEntries entries) g fun out g' =>
      out.isOk = true → Loaded ground (done ++ entries) g' := by
  induction entries generalizing g done with
  | nil =>
      rw [List.append_nil]
      exact Ends.pure fun _ => h
  | cons entry rest ih =>
      apply ends_addEntries_cons (h.addEntry entry)
      · intro e g' _ hok
        cases hok
      · intro id g' hloaded
        have hloaded := ih (hloaded rfl)
        rw [List.append_assoc] at hloaded
        exact hloaded

/-- Entries whose files can be read and linked, with all that these import, are loaded. -/
theorem ends_addEntries_of_sound
    {P : String → Prop}
    (hsound : ground.Sound P)
    (entries : List String)
    (hentries : ∀ entry ∈ entries, ∃ file, ground.entryFile? entry = some file ∧ P file)
    (hsame : SameGround ground g) :
    Ends (addEntries entries) g fun out _ => out.isOk = true := by
  induction entries generalizing g with
  | nil => exact Ends.pure rfl
  | cons entry rest ih =>
      obtain ⟨file, hfile, hfileP⟩ := hentries entry List.mem_cons_self
      rw [← hsame.entryFile?_eq] at hfile
      have hentry : Ends (addEntry entry) g fun out g' =>
          out.isOk = true ∧ SameGround ground g' := by
        apply (ends_addEntry hfile).mono
        rintro out g' ⟨loaded, hruns, hground, -⟩
        constructor
        · apply hruns.succeeds hsound hsame hfileP trivial
          exact Nat.lt_succ_of_le List.countP_le_length
        · exact (hsame.trans hruns.sameGround).trans hground
      apply ends_addEntries_cons hentry
      · rintro e g' ⟨hok, -⟩
        exact hok
      · rintro id g' ⟨-, hground⟩
        exact ih (fun other hother => hentries other (List.mem_cons_of_mem _ hother)) hground

/-! ### Graphs that entries were loaded into -/

namespace Loaded

variable {entries : List String}

theorem empty (root : String) (files : SourceFiles) (resolvers : List Resolver) :
    Loaded (.empty root files resolvers) [] (.empty root files resolvers) where
  same := ⟨rfl, rfl, rfl⟩
  coherent := coherent_empty root files resolvers
  resolved := by simp [Graph.empty]
  within := by simp [Graph.empty]
  entered := by simp

/-- A module is what its file makes it. -/
theorem moduleOf?
    {path : String}
    {m : GraphModule}
    (h : Loaded ground entries g)
    (hm : m ∈ g.modules)
    (hpath : m.path = some path) :
    ground.moduleOf? path = some m :=
  ((h.coherent.genuine m hm).of_sameGround h.same.symm).moduleOf? (h.resolved m hm) hpath

/-- The module with the identity of a file is that of the file. -/
theorem path_of_module?
    {path : String}
    {id : ModuleId}
    {m : GraphModule}
    (h : Loaded ground entries g)
    (hroot : Canonical ground.root)
    (hpath : Canonical path)
    (hid : ModuleId.ofPath path = .ok id)
    (hm : g.module? id = some m) :
    m.path = some path := by
  have hmem := mem_of_module? hm
  have hsame := ModuleId.same_iff.mp (same_of_module? hm)
  rw [ModuleId.eq_of_ofPath hid, hpath.clean_eq] at hsame
  cases (h.coherent.genuine m hmem).origin with
  | external hexternal =>
      -- the mark of an external module does not start at the root
      have hmark : isAbsolute m.id.path = true := by
        rw [← head?_components, hsame, head?_components]
        exact hpath.isAbsolute
      rw [hexternal] at hmark
      simp [GraphModule.ofExternal, ModuleId.external, ModuleId.externalMark, isAbsolute] at hmark
  | file _ hother hid' _ =>
      have hcanonical := (h.within m hmem _ hother).canonical hroot
      rw [hid', hcanonical.clean_eq] at hsame
      rw [hother, hcanonical.eq_of_components hpath hsame]

/-- Every file that is reached has its module. -/
theorem exists_module
    {path : String}
    (h : Loaded ground entries g)
    (hroot : Canonical ground.root)
    (hpath : ground.FromEntries entries path) :
    ∃ m ∈ g.modules, m.path = some path := by
  obtain ⟨entry, hentry, file, hfile, hreaches⟩ := hpath
  induction hreaches with
  | refl =>
      obtain ⟨file', id, m, hfile', hid, hm⟩ := h.entered entry hentry
      rw [hfile] at hfile'
      cases hfile'
      exact ⟨m, mem_of_module? hm,
        h.path_of_module? hroot (canonical_entryFile? hroot hfile) hid hm⟩
  | @tail path other hpath hedge ih =>
      obtain ⟨m, hm, hmpath⟩ := ih
      have hcanonical := (h.within m hm path hmpath).canonical hroot
      have hother := hedge.canonical hroot hcanonical
      obtain ⟨id, read, links, hid, hread, hsources, htargets, rfl⟩ :=
        moduleOf?_eq_some.mp (h.moduleOf? hm hmpath)
      obtain ⟨id', read', source, hid', hread', hsource, hto⟩ := hedge
      rw [hid] at hid'
      cases hid'
      rw [hread] at hread'
      cases hread'
      rw [hsources] at hsource
      obtain ⟨link, hlink, rfl⟩ := List.mem_map.mp hsource
      have htarget := htargets link hlink
      rw [target?, hto] at htarget
      obtain ⟨d, hd⟩ := h.coherent.linked _ hm link (List.mem_append_right _ hlink)
      exact ⟨d, mem_of_module? hd,
        h.path_of_module? hroot hother (toOption_eq_some.mp htarget) hd⟩

theorem sound
    (h : Loaded ground entries g)
    (hroot : Canonical ground.root) :
    ground.Sound (ground.FromEntries entries) where
  closed := fun path other hpath hedge => hpath.step hedge
  canonical := fun path hpath => hpath.canonical hroot
  readable := by
    intro path hpath
    obtain ⟨m, hm, hmpath⟩ := h.exists_module hroot hpath
    exact ⟨m, h.moduleOf? hm hmpath⟩

theorem mem_localModules
    {m : GraphModule}
    (h : Loaded ground entries g) :
    m ∈ g.localModules ↔ m ∈ g.modules ∧ ∃ path, m.path = some path := by
  unfold localModules
  rw [List.mem_filter]
  apply and_congr_right
  intro hm
  cases (h.coherent.genuine m hm).origin with
  | external hexternal =>
      rw [hexternal]
      simp [GraphModule.ofExternal]
  | file hexternal hpath _ _ => simp [hexternal, hpath]

/-- The local modules are those of the files that are reached, one for each. -/
theorem localModules_eq
    (h : Loaded ground entries g)
    (hroot : Canonical ground.root) :
    ∃ paths : List String,
      paths.Nodup ∧
      (∀ path, path ∈ paths ↔ ground.FromEntries entries path) ∧
      g.localModules.map some = paths.map ground.moduleOf? := by
  have hmodule : ∀ m ∈ g.localModules, ground.moduleOf? (m.path.getD "") = some m := by
    intro m hm
    obtain ⟨hm, path, hpath⟩ := h.mem_localModules.mp hm
    rw [hpath]
    exact h.moduleOf? hm hpath
  refine ⟨g.localModules.map fun m => m.path.getD "", ?_, ?_, ?_⟩
  · apply List.Nodup.map_on
    · intro a ha b hb hab
      have hmodules := hmodule a ha
      rw [hab, hmodule b hb] at hmodules
      exact (Option.some_inj.mp hmodules).symm
    · apply List.Nodup.filter
      apply h.coherent.distinct.imp
      rintro a _ hsame rfl
      rw [ModuleId.same_iff.mpr rfl] at hsame
      cases hsame
  · intro path
    rw [List.mem_map]
    constructor
    · rintro ⟨m, hm, rfl⟩
      obtain ⟨hm, path, hpath⟩ := h.mem_localModules.mp hm
      rw [hpath]
      exact h.within m hm path hpath
    · intro hpath
      obtain ⟨m, hm, hmpath⟩ := h.exists_module hroot hpath
      exact ⟨m, h.mem_localModules.mpr ⟨hm, path, hmpath⟩, by rw [hmpath, Option.getD_some]⟩
  · rw [List.map_map]
    apply List.map_congr_left
    exact fun m hm => (hmodule m hm).symm

end Loaded

/-- If loading entries succeeds, the local modules are those of the files that are reached from the
entries, one for each, and all of them are settled; `moduleOf?` gives each one from its file.  The
same entries in any order and number succeed too, and load the same local modules. -/
theorem addEntries_loads_closure
    (ground : Graph)
    (root : String)
    (files : SourceFiles)
    (resolvers : List Resolver)
    (hempty : ground = .empty root files resolvers)
    (hroot : isAbsolute root = true)
    (entries : List String)
    (hok : outcome (addEntries entries) ground = .ok ()) :
    (∃ paths : List String,
      paths.Nodup ∧
      (∀ path, path ∈ paths ↔ ground.FromEntries entries path) ∧
      (after (addEntries entries) ground).localModules.map some = paths.map ground.moduleOf?) ∧
    (∀ m ∈ (after (addEntries entries) ground).localModules, m.resolved = true) ∧
    ∀ entries' : List String, (∀ entry, entry ∈ entries' ↔ entry ∈ entries) →
      outcome (addEntries entries') ground = .ok () ∧
      (after (addEntries entries') ground).localModules.Perm
        (after (addEntries entries) ground).localModules := by
  have hcanonical : Canonical ground.root := by
    rw [hempty]
    exact canonical_clean hroot
  have hstart : Loaded ground [] ground := by
    rw [hempty]
    exact Loaded.empty root files resolvers
  have hloads : ∀ entries, outcome (addEntries entries) ground = .ok () →
      Loaded ground entries (after (addEntries entries) ground) := by
    intro entries hok
    have hends := hstart.addEntries entries
    unfold Ends at hends
    rw [hok] at hends
    exact hends rfl
  have hloaded := hloads entries hok
  obtain ⟨paths, hnodup, hpaths, hmodules⟩ := hloaded.localModules_eq hcanonical
  refine ⟨⟨paths, hnodup, hpaths, hmodules⟩, ?_, ?_⟩
  · intro m hm
    exact hloaded.resolved m (hloaded.mem_localModules.mp hm).1
  · intro entries' hsame
    have hok' : outcome (addEntries entries') ground = .ok () := by
      have hends := ends_addEntries_of_sound (hloaded.sound hcanonical) entries'
        (by
          intro entry hentry
          obtain ⟨file, _, _, hfile, -⟩ := hloaded.entered entry ((hsame entry).mp hentry)
          exact ⟨file, hfile, entry, (hsame entry).mp hentry, file, hfile, .refl⟩)
        hstart.same
      unfold Ends at hends
      cases hout : outcome (addEntries entries') ground with
      | error e => rw [hout] at hends; cases hends
      | ok _ => rfl
    refine ⟨hok', ?_⟩
    obtain ⟨paths', hnodup', hpaths', hmodules'⟩ :=
      (hloads entries' hok').localModules_eq hcanonical
    have hperm : paths'.Perm paths := by
      apply (List.perm_ext_iff_of_nodup hnodup' hnodup).mpr
      intro path
      rw [hpaths, hpaths']
      constructor
      · exact fun hpath => hpath.mono fun entry => (hsame entry).mp
      · exact fun hpath => hpath.mono fun entry => (hsame entry).mpr
    have hperm := hperm.map ground.moduleOf?
    rw [← hmodules, ← hmodules'] at hperm
    exact (List.map_perm_map_iff fun _ _ => Option.some_inj.mp).mp hperm

/-- A file and the index file of a directory that import each other. -/
def library : Graph :=
  .empty "/p"
    (.ofTexts
      [("/p/main.js", "import './lib';\n"), ("/p/lib/index.js", "import '../main';\n")])
    (Resolver.defaults [])

/-- The second entry is loaded with the first one, and they load the same modules in any order. -/
theorem addEntries_loads_closure_library :
    outcome (addEntries ["lib", "main", "main"]) library = .ok () ∧
    (after (addEntries ["lib", "main", "main"]) library).localModules.Perm
      (after (addEntries ["main", "lib"]) library).localModules ∧
    ∃ paths : List String,
      (∀ path, path ∈ paths ↔ library.FromEntries ["main", "lib"] path) ∧
      (after (addEntries ["main", "lib"]) library).localModules.map some =
        paths.map library.moduleOf? := by
  obtain ⟨⟨paths, -, hpaths, hmodules⟩, -, hagain⟩ :=
    addEntries_loads_closure library "/p" _ _ rfl (by decide) ["main", "lib"] (by decide +kernel)
  obtain ⟨hok, hperm⟩ := hagain ["lib", "main", "main"] (by simp [or_comm])
  exact ⟨hok, hperm, paths, hpaths, hmodules⟩

end Graph
end EsModules
