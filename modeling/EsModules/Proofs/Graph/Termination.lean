import EsModules.Proofs.Graph.Closure
import EsModules.Proofs.Graph.FailedCalls
import EsModules.Proofs.Path.Normal
import Mathlib.Data.List.Dedup

/-!
# Loading comes to an end

Loading a file resolves its imports, which load other files, and nothing in the files keeps them
from importing one another.  `Finishes` says what such a task does without a bound on its depth: it
has no rule for a task that goes on for ever.  Every task finishes, because a file that has been
read is in the graph before its imports are resolved, so that fewer and fewer files are left to be
read.  For the same reason no file is read a second time, in this call or in a later one
(`ReadsOnce`).
-/

namespace EsModules
namespace Graph

open EsModules.Path

variable {g g' g'' : Graph} {depth : Nat} {task : Task} {out : Except GraphError ModuleId}

/-- What a task does until it ends: the files that are read and analysed, one after the other, what
is answered, and the graph that is left. -/
inductive Finishes : Task → Graph → List String → Except GraphError ModuleId → Graph → Prop where
  | refused
      {path : String} {e : ModuleIdError} {g : Graph}
      (hid : ModuleId.ofPath path = .error e) :
      Finishes (.load path) g [] (.error (.moduleId e)) g
  | cached
      {path : String} {id : ModuleId} {m : GraphModule} {g : Graph}
      (hid : ModuleId.ofPath path = .ok id)
      (hm : g.module? id = some m) :
      Finishes (.load path) g [] (.ok id) g
  | unreadable
      {path : String} {id : ModuleId} {e : GraphError} {g : Graph}
      (hid : ModuleId.ofPath path = .ok id)
      (hnew : g.module? id = none)
      (hread : g.readModule id path = .error e) :
      Finishes (.load path) g [] (.error e) g
  | load
      {path : String} {id : ModuleId} {m : GraphModule} {g g' : Graph} {reads : List String}
      {out : Except GraphError ModuleId}
      (hid : ModuleId.ofPath path = .ok id)
      (hnew : g.module? id = none)
      (hread : g.readModule id path = .ok m)
      (hlink : Finishes (.link id m.catalog.sources) (addModule m g) reads out g') :
      Finishes (.load path) g ([path] ++ reads) out g'
  | unresolved
      {specifier : String} {importer : ModuleId} {g : Graph}
      (hto : g.resolution? specifier importer = none) :
      Finishes (.resolve specifier importer) g []
        (.error (.unresolvedImport specifier (g.displayName importer))) g
  | provided
      {specifier name : String} {importer : ModuleId} {m : GraphModule} {g : Graph}
      (hto : g.resolution? specifier importer = some (.external name))
      (hm : g.module? (.external name) = some m) :
      Finishes (.resolve specifier importer) g [] (.ok (.external name)) g
  | provide
      {specifier name : String} {importer : ModuleId} {g : Graph}
      (hto : g.resolution? specifier importer = some (.external name))
      (hnew : g.module? (.external name) = none) :
      Finishes (.resolve specifier importer) g [] (.ok (.external name))
        (addModule (.ofExternal name) g)
  | file
      {specifier path : String} {importer : ModuleId} {g g' : Graph} {reads : List String}
      {out : Except GraphError ModuleId}
      (hto : g.resolution? specifier importer = some (.file path))
      (hload : Finishes (.load path) g reads out g') :
      Finishes (.resolve specifier importer) g reads out g'
  | settle (id : ModuleId) (g : Graph) :
      Finishes (.link id []) g [] (.ok id)
        (updateModule id (fun m => { m with resolved := true }) g)
  | blocked
      {id : ModuleId} {specifier : String} {rest reads : List String} {g g' : Graph}
      {e : GraphError}
      (hresolve : Finishes (.resolve specifier id) g reads (.error e) g') :
      Finishes (.link id (specifier :: rest)) g reads (.error e) g'
  | link
      {id dependency : ModuleId} {specifier : String} {rest reads reads' : List String}
      {g g' g'' : Graph} {out : Except GraphError ModuleId}
      (hresolve : Finishes (.resolve specifier id) g reads (.ok dependency) g')
      (hrest : Finishes (.link id rest)
        (updateModule id
          (fun m => { m with dependencies := m.dependencies ++ [(specifier, dependency)] }) g')
        reads' out g'') :
      Finishes (.link id (specifier :: rest)) g (reads ++ reads') out g''

/-- A call until it ends. -/
inductive Call.Finishes (g : Graph) :
    Call → List String → Except GraphError ModuleId → Graph → Prop where
  | missing
      {entry : String}
      (hfile : g.entryFile? entry = none) :
      Finishes g (.addEntry entry) [] (.error (.unresolvedImport entry "<entry>")) g
  | failed
      {entry file : String} {reads : List String} {e : GraphError} {g' : Graph}
      (hfile : g.entryFile? entry = some file)
      (hload : Graph.Finishes (.load file) g reads (.error e) g') :
      Finishes g (.addEntry entry) reads (.error e) g'
  | entered
      {entry file : String} {reads : List String} {id : ModuleId} {g' : Graph}
      (hfile : g.entryFile? entry = some file)
      (hload : Graph.Finishes (.load file) g reads (.ok id) g') :
      Finishes g (.addEntry entry) reads (.ok id)
        (if id.isAmong g'.entries then g' else { g' with entries := g'.entries ++ [id] })
  | resolved
      {specifier : String} {importer : ModuleId} {reads : List String} {g' : Graph}
      {out : Except GraphError ModuleId}
      (hresolve : Graph.Finishes (.resolve specifier importer) g reads out g') :
      Finishes g (.resolveModule specifier importer) reads out g'

/-- Calls one after the other, whether they fail or not, with all files that they read. -/
inductive FinishAll : List Call → Graph → List String → Graph → Prop where
  | nil (g : Graph) : FinishAll [] g [] g
  | cons
      {call : Call} {calls : List Call} {reads reads' : List String}
      {out : Except GraphError ModuleId} {g g' g'' : Graph}
      (hcall : call.Finishes g reads out g')
      (hcalls : FinishAll calls g' reads' g'') :
      FinishAll (call :: calls) g (reads ++ reads') g''

/-! ### What is done is determined -/

theorem Finishes.unique
    {reads reads' : List String}
    {out' : Except GraphError ModuleId}
    (h : Finishes task g reads out g')
    (h' : Finishes task g reads' out' g'') :
    reads = reads' ∧ out = out' ∧ g' = g'' := by
  induction h generalizing reads' out' g'' with
  | refused hid => cases h' <;> simp_all
  | cached hid hm => cases h' <;> simp_all
  | unreadable hid hnew hread => cases h' <;> simp_all
  | load hid hnew hread hlink ih =>
      cases h' with
      | load hid' hnew' hread' hlink' =>
          cases hid.symm.trans hid'
          cases hread.symm.trans hread'
          obtain ⟨rfl, rfl, rfl⟩ := ih hlink'
          exact ⟨rfl, rfl, rfl⟩
      | _ => simp_all
  | unresolved hto => cases h' <;> simp_all
  | provided hto hm => cases h' <;> simp_all
  | provide hto hnew => cases h' <;> simp_all
  | file hto hload ih =>
      cases h' with
      | file hto' hload' =>
          cases hto.symm.trans hto'
          exact ih hload'
      | _ => simp_all
  | settle id g =>
      cases h'
      exact ⟨rfl, rfl, rfl⟩
  | blocked hresolve ih =>
      cases h' with
      | blocked hresolve' => exact ih hresolve'
      | link hresolve' hrest' => cases (ih hresolve').2.1
  | link hresolve hrest ih ih' =>
      cases h' with
      | blocked hresolve' => cases (ih hresolve').2.1
      | link hresolve' hrest' =>
          obtain ⟨rfl, ⟨⟩, rfl⟩ := ih hresolve'
          obtain ⟨rfl, rfl, rfl⟩ := ih' hrest'
          exact ⟨rfl, rfl, rfl⟩

theorem Call.Finishes.unique
    {call : Call}
    {reads reads' : List String}
    {out' : Except GraphError ModuleId}
    (h : call.Finishes g reads out g')
    (h' : call.Finishes g reads' out' g'') :
    reads = reads' ∧ out = out' ∧ g' = g'' := by
  cases h with
  | missing hfile => cases h' <;> simp_all
  | failed hfile hload =>
      cases h' with
      | missing hfile' => cases hfile.symm.trans hfile'
      | failed hfile' hload' =>
          cases hfile.symm.trans hfile'
          exact hload.unique hload'
      | entered hfile' hload' =>
          cases hfile.symm.trans hfile'
          cases (hload.unique hload').2.1
  | entered hfile hload =>
      cases h' with
      | missing hfile' => cases hfile.symm.trans hfile'
      | failed hfile' hload' =>
          cases hfile.symm.trans hfile'
          cases (hload.unique hload').2.1
      | entered hfile' hload' =>
          cases hfile.symm.trans hfile'
          obtain ⟨rfl, ⟨⟩, rfl⟩ := hload.unique hload'
          exact ⟨rfl, rfl, rfl⟩
  | resolved hresolve =>
      cases h' with
      | resolved hresolve' => exact hresolve.unique hresolve'

/-! ### The files that are left -/

section Memory

variable {texts : List (String × String)}

/-- The paths of the files in memory. -/
def memoryPaths (texts : List (String × String)) : List String :=
  texts.map fun file => clean file.1

theorem mem_memoryPaths
    {file : SourceFile}
    (h : file ∈ (SourceFiles.ofTexts texts).files) :
    file.path ∈ memoryPaths texts := by
  obtain ⟨text, htext, rfl⟩ := List.mem_map.mp h
  exact List.mem_map.mpr ⟨text, List.mem_reverse.mp htext, rfl⟩

/-- A file in memory that is found at a path has the clean path as its own. -/
theorem path_of_get?
    {path : String}
    {file : SourceFile}
    (hfiles : g.files = .ofTexts texts)
    (h : g.files.get? path = some file) :
    file ∈ g.files.files ∧ file.path = clean path ∧ clean path ∈ memoryPaths texts := by
  have hmem := List.mem_of_find?_eq_some h
  have hfound := List.find?_some h
  have hjoin : join g.files.base path = path := by
    rw [hfiles]
    unfold join
    split
    · rfl
    · rfl
  rw [hjoin, beq_iff_eq] at hfound
  refine ⟨hmem, hfound, ?_⟩
  rw [← hfound]
  exact mem_memoryPaths (hfiles ▸ hmem)

theorem get?_of_readModule
    {id : ModuleId}
    {path : String}
    {m : GraphModule}
    (h : g.readModule id path = .ok m) :
    ∃ file, g.files.get? path = some file := by
  obtain ⟨name, text, catalog, -, htext, -, -⟩ := readModule_eq_ok h
  obtain ⟨file, hfile, -⟩ := Option.bind_eq_some_iff.mp htext
  exact ⟨file, hfile⟩

/-- A task that is not stopped by its depth finishes. -/
theorem Runs.finishes
    (h : Runs depth task g out g')
    (hfiles : g.files = .ofTexts texts)
    (hdepth : g.unread < depth) :
    ∃ reads, Finishes task g reads out g' := by
  induction h with
  | exhausted => exact absurd hdepth (Nat.not_lt_zero _)
  | refused hid => exact ⟨_, .refused hid⟩
  | cached hid hm => exact ⟨_, .cached hid hm⟩
  | unreadable hid hnew hread => exact ⟨_, .unreadable hid hnew hread⟩
  | @load depth path id m g g' out hid hnew hread hlink ih =>
      obtain ⟨file, hget⟩ := get?_of_readModule hread
      obtain ⟨hfile, hpath, -⟩ := path_of_get? hfiles hget
      have hfileId : id = ⟨file.path⟩ := by rw [hpath, ModuleId.eq_of_ofPath hid]
      have hfewer : (addModule m g).unread < g.unread :=
        unread_addModule_lt_of_mem hfile (hfileId ▸ hnew) (hfileId ▸ id_of_readModule hread)
      obtain ⟨reads, hreads⟩ := ih hfiles (by omega)
      exact ⟨_, .load hid hnew hread hreads⟩
  | unresolved hto => exact ⟨_, .unresolved hto⟩
  | provided hto hm => exact ⟨_, .provided hto hm⟩
  | provide hto hnew => exact ⟨_, .provide hto hnew⟩
  | file hto hload ih =>
      obtain ⟨reads, hreads⟩ := ih hfiles hdepth
      exact ⟨_, .file hto hreads⟩
  | settle depth id g => exact ⟨_, .settle id g⟩
  | blocked hresolve ih =>
      obtain ⟨reads, hreads⟩ := ih hfiles hdepth
      exact ⟨_, .blocked hreads⟩
  | @link depth id dependency specifier rest g g' g'' out hresolve hrest ih ih' =>
      obtain ⟨reads, hreads⟩ := ih hfiles hdepth
      obtain ⟨added, hadds, -⟩ := hresolve.leaves
      have hresolved : g'.unread ≤ g.unread := by
        rw [hadds.eq]
        apply unread_le
        · rfl
        · exact fun a ha => ⟨a, List.mem_append_left _ ha, rfl⟩
      have hlinked :
          (updateModule id (fun m =>
            { m with dependencies := m.dependencies ++ [(specifier, dependency)] }) g').unread ≤
              g'.unread :=
        unread_le rfl (ids_updateModule fun _ => rfl)
      have hfiles' : g'.files = .ofTexts texts := by rw [hresolve.sameGround.files, hfiles]
      obtain ⟨reads', hreads'⟩ := ih' hfiles' (by omega)
      exact ⟨_, .link hreads hreads'⟩

theorem unread_lt_loadingDepth (g : Graph) : g.unread < g.loadingDepth :=
  Nat.lt_succ_of_le List.countP_le_length

/-- Every call finishes, with the answer and the graph that it gives. -/
theorem Call.finishes (hfiles : g.files = .ofTexts texts) (call : Call) :
    Ends call.step g fun out g' => ∃ reads, call.Finishes g reads out g' := by
  cases call with
  | addEntry entry =>
      apply Ends.get
      split
      · rename_i hfile
        exact Ends.throw ⟨[], .missing hfile⟩
      · rename_i file hfile
        apply (runs_loadLocal g.loadingDepth file g).bind
        · intro e g' hruns
          obtain ⟨reads, hreads⟩ := hruns.finishes hfiles (unread_lt_loadingDepth g)
          exact ⟨reads, .failed hfile hreads⟩
        · intro id g' hruns
          obtain ⟨reads, hreads⟩ := hruns.finishes hfiles (unread_lt_loadingDepth g)
          apply Ends.modify
          exact Ends.pure ⟨reads, .entered hfile hreads⟩
  | resolveModule specifier importer =>
      obtain ⟨reads, hreads⟩ :=
        Runs.finishes (runs_resolveModule specifier importer g) hfiles (unread_lt_loadingDepth g)
      exact ⟨reads, .resolved hreads⟩

end Memory

/-! ### Files that are read -/

/-- What is read in a part of a history: files that had no module before and have one behind it,
none of them twice. -/
structure ReadsOnce (g : Graph) (reads : List String) (g' : Graph) : Prop where
  ground : SameGround g g'
  kept : ∀ a ∈ g.modules, ∃ b ∈ g'.modules, b.id = a.id
  found : ∀ path ∈ reads, g.files.isFile path = true
  fresh : ∀ path ∈ reads, g.module? ⟨clean path⟩ = none
  entered : ∀ path ∈ reads, ∃ m, g'.module? ⟨clean path⟩ = some m
  once : (reads.map clean).Nodup

namespace ReadsOnce

variable {reads reads' : List String}

/-- Nothing is read where the identities stay. -/
theorem of_nothing
    (hground : SameGround g g')
    (hkept : ∀ a ∈ g.modules, ∃ b ∈ g'.modules, b.id = a.id) :
    ReadsOnce g [] g' where
  ground := hground
  kept := hkept
  found := by simp
  fresh := by simp
  entered := by simp
  once := .nil

theorem refl (g : Graph) : ReadsOnce g [] g :=
  of_nothing ⟨rfl, rfl, rfl⟩ fun a ha => ⟨a, ha, rfl⟩

theorem update {f : GraphModule → GraphModule} (id : ModuleId) (hf : ∀ m, (f m).id = m.id) :
    ReadsOnce g [] (updateModule id f g) :=
  of_nothing ⟨rfl, rfl, rfl⟩ (ids_updateModule hf)

theorem add (m : GraphModule) : ReadsOnce g [] (addModule m g) :=
  of_nothing ⟨rfl, rfl, rfl⟩ fun a ha => ⟨a, List.mem_append_left _ ha, rfl⟩

theorem read
    {path : String}
    {id : ModuleId}
    {m : GraphModule}
    (hid : ModuleId.ofPath path = .ok id)
    (hnew : g.module? id = none)
    (hread : g.readModule id path = .ok m) :
    ReadsOnce g [path] (addModule m g) where
  ground := (add m).ground
  kept := (add m).kept
  found := by
    obtain ⟨file, hfile⟩ := get?_of_readModule hread
    simp [SourceFiles.isFile, hfile]
  fresh := by
    rw [List.forall_mem_singleton, ← ModuleId.eq_of_ofPath hid]
    exact hnew
  entered := by
    rw [List.forall_mem_singleton, ← ModuleId.eq_of_ofPath hid]
    apply exists_module?_iff.mpr
    refine ⟨m, by simp [addModule], ?_⟩
    rw [id_of_readModule hread]
    exact ModuleId.same_iff.mpr rfl
  once := List.nodup_singleton _

/-- What was read before is not read behind it. -/
theorem trans (h : ReadsOnce g reads g') (h' : ReadsOnce g' reads' g'') :
    ReadsOnce g (reads ++ reads') g'' where
  ground := h.ground.trans h'.ground
  kept := by
    intro a ha
    obtain ⟨b, hb, hab⟩ := h.kept a ha
    obtain ⟨c, hc, hbc⟩ := h'.kept b hb
    exact ⟨c, hc, hbc.trans hab⟩
  found := by
    have hlater := h'.found
    rw [h.ground.files] at hlater
    exact List.forall_mem_append.mpr ⟨h.found, hlater⟩
  fresh := by
    refine List.forall_mem_append.mpr ⟨h.fresh, ?_⟩
    intro path hpath
    have hnone := h'.fresh path hpath
    rw [← Option.isNone_iff_eq_none] at hnone ⊢
    exact isNone_of_ids h.kept hnone
  entered := by
    refine List.forall_mem_append.mpr ⟨?_, h'.entered⟩
    intro path hpath
    obtain ⟨m, hm⟩ := h.entered path hpath
    exact exists_module?_of_ids h'.kept hm
  once := by
    rw [List.map_append, List.nodup_append]
    refine ⟨h.once, h'.once, ?_⟩
    intro first hfirst second hsecond hsame
    obtain ⟨path, hpath, rfl⟩ := List.mem_map.mp hfirst
    obtain ⟨later, hlater, rfl⟩ := List.mem_map.mp hsecond
    obtain ⟨m, hm⟩ := h.entered path hpath
    rw [hsame, h'.fresh later hlater] at hm
    cases hm

end ReadsOnce

theorem Finishes.readsOnce {reads : List String} (h : Finishes task g reads out g') :
    ReadsOnce g reads g' := by
  induction h with
  | refused => exact .refl _
  | cached => exact .refl _
  | unreadable => exact .refl _
  | load hid hnew hread _ ih => exact (ReadsOnce.read hid hnew hread).trans ih
  | unresolved => exact .refl _
  | provided => exact .refl _
  | provide => exact .add _
  | file _ _ ih => exact ih
  | settle id g => exact .update id fun _ => rfl
  | blocked _ ih => exact ih
  | @link id dependency specifier _ _ _ _ g' _ _ _ _ ih ih' =>
      have hlinked : ReadsOnce g' []
          (updateModule id (fun m =>
            { m with dependencies := m.dependencies ++ [(specifier, dependency)] }) g') :=
        .update id fun _ => rfl
      exact ih.trans (hlinked.trans ih')

theorem Call.Finishes.readsOnce
    {call : Call}
    {reads : List String}
    (h : call.Finishes g reads out g') :
    ReadsOnce g reads g' := by
  cases h with
  | missing => exact .refl _
  | failed _ hload => exact hload.readsOnce
  | @entered _ _ _ id loaded _ hload =>
      have hentered : ReadsOnce loaded [] (if id.isAmong loaded.entries then loaded
          else { loaded with entries := loaded.entries ++ [id] }) := by
        split
        · exact .refl _
        · exact .of_nothing ⟨rfl, rfl, rfl⟩ fun a ha => ⟨a, ha, rfl⟩
      simpa using hload.readsOnce.trans hentered
  | resolved hresolve => exact hresolve.readsOnce

theorem FinishAll.readsOnce
    {calls : List Call}
    {reads : List String}
    (h : FinishAll calls g reads g') :
    ReadsOnce g reads g' := by
  induction h with
  | nil g => exact .refl g
  | cons hcall _ ih => exact hcall.readsOnce.trans ih

/-! ### Histories of calls -/

section Histories

variable {texts : List (String × String)}

theorem exists_finishAll (hfiles : g.files = .ofTexts texts) (calls : List Call) :
    ∃ reads g', FinishAll calls g reads g' := by
  induction calls generalizing g with
  | nil => exact ⟨[], g, .nil g⟩
  | cons call calls ih =>
      obtain ⟨reads, hcall⟩ := Call.finishes hfiles call
      obtain ⟨reads', g'', hcalls⟩ := ih (hcall.readsOnce.ground.files.trans hfiles)
      exact ⟨_, g'', .cons hcall hcalls⟩

/-- The local modules have the paths of different files. -/
theorem length_localModules_le
    (hfiles : g.files = .ofTexts texts)
    (hg : g.Reached) :
    g.localModules.length ≤ (memoryPaths texts).dedup.length := by
  have hcoherent := hg.coherent
  have hnodup : (g.localModules.map fun m => m.id.path).Nodup := by
    rw [List.Nodup, List.pairwise_map]
    apply (hcoherent.distinct.filter _).imp
    intro a b hsame hpath
    rw [ModuleId.same_iff.mpr (congrArg components hpath)] at hsame
    cases hsame
  have hpaths : (g.localModules.map fun m => m.id.path) ⊆ (memoryPaths texts).dedup := by
    intro path hpath
    obtain ⟨m, hm, rfl⟩ := List.mem_map.mp hpath
    obtain ⟨hm, hlocal⟩ := List.mem_filter.mp hm
    cases hcoherent.genuine m hm with
    | external name => cases hlocal
    | @loaded path id read links rest done hid hread _ _ _ =>
        obtain ⟨file, hfile⟩ := get?_of_readModule hread
        have hid : (read.advance links done).id = ⟨clean path⟩ := by
          rw [← ModuleId.eq_of_ofPath hid, ← id_of_readModule hread]
          rfl
        rw [hid, List.mem_dedup]
        exact (path_of_get? hfiles hfile).2.2
  have hlength := (List.subperm_of_subset hnodup hpaths).length_le
  rwa [List.length_map] at hlength

/-- Every call on every graph of files in memory comes to an end, with one answer.  In every history
of calls each file is read and analysed at most once, and none whose module is in the graph already.
A graph that calls reach has at most as many local modules as there are files. -/
theorem calls_finish_and_read_once
    (texts : List (String × String))
    (g : Graph)
    (hfiles : g.files = .ofTexts texts) :
    (∀ call : Call, ∃ reads,
      call.Finishes g reads (outcome call.step g) (after call.step g) ∧
      ∀ reads' out g', call.Finishes g reads' out g' →
        reads' = reads ∧ out = outcome call.step g ∧ g' = after call.step g) ∧
    (∀ calls : List Call, ∃ reads g', FinishAll calls g reads g') ∧
    (∀ calls reads g', FinishAll calls g reads g' →
      (reads.map clean).Nodup ∧
      ∀ path ∈ reads, clean path ∈ memoryPaths texts ∧ g.module? ⟨clean path⟩ = none) ∧
    (g.Reached → g.localModules.length ≤ (memoryPaths texts).dedup.length) := by
  refine ⟨?_, exists_finishAll hfiles, ?_, length_localModules_le hfiles⟩
  · intro call
    obtain ⟨reads, hreads⟩ := Call.finishes hfiles call
    exact ⟨reads, hreads, fun reads' out g' h => h.unique hreads⟩
  · intro calls reads g' h
    refine ⟨h.readsOnce.once, ?_⟩
    intro path hpath
    obtain ⟨file, hfile⟩ := Option.isSome_iff_exists.mp (h.readsOnce.found path hpath)
    exact ⟨(path_of_get? hfiles hfile).2.2, h.readsOnce.fresh path hpath⟩

end Histories

/-- A file that imports itself, and another one that imports it. -/
def selfImport : Graph :=
  .empty "/p"
    (.ofTexts [("/p/a.js", "import './a';\nimport './b';\n"), ("/p/b.js", "import './a';\n")])
    (Resolver.defaults [])

/-- The circles come to an end at the first call, and the second one reads nothing again. -/
theorem calls_finish_and_read_once_selfImport :
    outcome (addEntry "a") selfImport = .ok ⟨"/p/a.js"⟩ ∧
    (∃ reads, (Call.addEntry "a").Finishes selfImport reads (.ok ⟨"/p/a.js"⟩)
      (after (addEntry "a") selfImport)) ∧
    (∃ reads g', FinishAll [.addEntry "a", .addEntry "b"] selfImport reads g' ∧
      (reads.map clean).Nodup) ∧
    (after (addEntry "a") selfImport).localModules.length = 2 ∧
    (after (addEntry "a") selfImport).localModules.length ≤
      (memoryPaths [("/p/a.js", "import './a';\nimport './b';\n"),
        ("/p/b.js", "import './a';\n")]).dedup.length := by
  have hok : outcome (addEntry "a") selfImport = .ok ⟨"/p/a.js"⟩ := by decide +kernel
  have hlength : (after (addEntry "a") selfImport).localModules.length = 2 := by decide +kernel
  obtain ⟨hcalls, hhistory, honce, -⟩ := calls_finish_and_read_once _ selfImport rfl
  obtain ⟨reads, hreads, -⟩ := hcalls (.addEntry "a")
  obtain ⟨reads', g', hboth⟩ := hhistory [.addEntry "a", .addEntry "b"]
  have hreached : (after (addEntry "a") selfImport).Reached := .addEntry (.empty _ _ _) "a"
  have hbound := (calls_finish_and_read_once _ (after (addEntry "a") selfImport)
    (hreads.readsOnce.ground.files)).2.2.2 hreached
  exact ⟨hok, ⟨reads, hok ▸ hreads⟩, ⟨reads', g', hboth, (honce _ _ _ hboth).1⟩, hlength, hbound⟩

end Graph
end EsModules
