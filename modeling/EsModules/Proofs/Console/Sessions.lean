import EsModules.Console.Run
import EsModules.Proofs.Disk

/-!
# What a command leaves on the disk

A command is followed step by step: from the disks that it may start with to those that it may
leave, whether it succeeds or fails (`Ensures`).  What was written before a failure stays.
-/

namespace EsModules
namespace Console
namespace Session

variable {α β : Type} {environment : List (String × String)}

/-- The result of a step and the state that it leaves. -/
def outcome (x : Session α) (environment : List (String × String)) (s : State) :
    Except CommandError α × State :=
  (x.run environment).run.run s

/-- From a disk as described before, a step that succeeds leaves one as described after it, and a
step that fails leaves one as described for failures. -/
structure Ensures
    (environment : List (String × String))
    (before : Disk → Prop)
    (x : Session α)
    (after : α → Disk → Prop)
    (failed : Disk → Prop) :
    Prop where
  holds : ∀ s, before s.disk →
    match x.outcome environment s with
    | (.ok a, s') => after a s'.disk
    | (.error _, s') => failed s'.disk

variable {before failed : Disk → Prop} {after : α → Disk → Prop}

theorem ensures_pure {a : α} (h : ∀ disk, before disk → after a disk) :
    Ensures environment before (pure a) after failed :=
  ⟨fun s hs => h s.disk hs⟩

theorem ensures_throw {e : CommandError} (h : ∀ disk, before disk → failed disk) :
    Ensures environment before (throw e) after failed :=
  ⟨fun s hs => h s.disk hs⟩

theorem outcome_bind (x : Session β) (next : β → Session α) (s : State) :
    outcome (x >>= next) environment s =
      match x.outcome environment s with
      | (.ok b, s') => (next b).outcome environment s'
      | (.error e, s') => (.error e, s') := by
  rcases hx : x.outcome environment s with ⟨_ | b, s'⟩
  · simp only [outcome, ReaderT.run_bind, ExceptT.run_bind, StateT.run_bind] at hx ⊢
    rw [hx]
    rfl
  · simp only [outcome, ReaderT.run_bind, ExceptT.run_bind, StateT.run_bind] at hx ⊢
    rw [hx]
    rfl

theorem Ensures.bind
    {x : Session β}
    {next : β → Session α}
    {middle : β → Disk → Prop}
    (h : Ensures environment before x middle failed)
    (hnext : ∀ b, Ensures environment (middle b) (next b) after failed) :
    Ensures environment before (x >>= next) after failed := by
  constructor
  intro s hs
  have hx := h.holds s hs
  rw [outcome_bind]
  split at hx
  · rename_i b s' _
    exact (hnext b).holds s' hx
  · exact hx

theorem Ensures.ite
    {p : Prop}
    [Decidable p]
    {x y : Session α}
    (h : Ensures environment before x after failed)
    (h' : Ensures environment before y after failed) :
    Ensures environment before (if p then x else y) after failed := by
  split
  · exact h
  · exact h'

theorem Ensures.weaken
    {before' failed' : Disk → Prop}
    {after' : α → Disk → Prop}
    {x : Session α}
    (h : Ensures environment before x after failed)
    (hbefore : ∀ disk, before' disk → before disk)
    (hafter : ∀ a disk, after a disk → after' a disk)
    (hfailed : ∀ disk, failed disk → failed' disk) :
    Ensures environment before' x after' failed' := by
  constructor
  intro s hs
  have hx := h.holds s (hbefore _ hs)
  split at hx
  · exact hafter _ _ hx
  · exact hfailed _ hx

/-- Where success and failure do not matter, so much is known of the disk that is left. -/
theorem Ensures.left
    {kept : Disk → Prop}
    {x : Session α}
    (h : Ensures environment before x (fun _ => kept) kept)
    {s : State}
    (hs : before s.disk) :
    kept (x.outcome environment s).2.disk := by
  have hx := h.holds s hs
  rcases hout : x.outcome environment s with ⟨_ | a, left⟩
  · rw [hout] at hx
    exact hx
  · rw [hout] at hx
    exact hx

/-- What is known beside the disk is a hypothesis. -/
theorem ensures_of_and
    {p : Prop}
    {x : Session α}
    (h : p → Ensures environment before x after failed) :
    Ensures environment (fun disk => p ∧ before disk) x after failed :=
  ⟨fun s hs => (h hs.1).holds s hs.2⟩

/-- The state may be looked at. -/
theorem ensures_get
    {next : State → Session α}
    (h : ∀ s, before s.disk → Ensures environment (· = s.disk) (next s) after failed) :
    Ensures environment before (get >>= next) after failed := by
  constructor
  intro s hs
  rw [outcome_bind]
  exact (h s hs).holds s rfl

/-- The variables may be looked at. -/
theorem ensures_read
    {next : List (String × String) → Session α}
    (h : Ensures environment before (next environment) after failed) :
    Ensures environment before (read >>= next) after failed := by
  constructor
  intro s hs
  rw [outcome_bind]
  exact h.holds s hs

theorem ensures_modify
    {f : State → State}
    {after : Unit → Disk → Prop}
    (h : ∀ s, before s.disk → after () (f s).disk) :
    Ensures environment before (modify f) after failed :=
  ⟨fun s hs => h s hs⟩

theorem ensures_orFail
    {ε : Type}
    {wrap : ε → CommandError}
    {result : Except ε α}
    (hok : ∀ a disk, result = .ok a → before disk → after a disk)
    (hfailed : ∀ disk, before disk → failed disk) :
    Ensures environment before (orFail wrap result) after failed := by
  cases result with
  | ok a => exact ensures_pure fun disk hdisk => hok a disk rfl hdisk
  | error e => exact ensures_throw hfailed

/-- What every step keeps, all of them keep. -/
theorem ensures_mapM
    {items : List β}
    {f : β → Session α}
    (h : ∀ item ∈ items, Ensures environment before (f item) (fun _ => before) before) :
    Ensures environment before (items.mapM f) (fun _ => before) before := by
  induction items with
  | nil => exact ensures_pure fun _ hdisk => hdisk
  | cons item items ih =>
      obtain ⟨hitem, hrest⟩ := List.forall_mem_cons.mp h
      rw [List.mapM_cons]
      exact hitem.bind fun _ => (ih hrest).bind fun _ => ensures_pure fun _ hdisk => hdisk

/-! ### Steps that write nothing -/

theorem ensures_print (text : String) :
    Ensures environment before (print text) (fun _ => before) before :=
  ensures_modify fun _ hdisk => hdisk

theorem ensures_tell (notice : Notice) :
    Ensures environment before (tell notice) (fun _ => before) before :=
  ensures_modify fun _ hdisk => hdisk

theorem ensures_readFile (path : String) :
    Ensures environment before (readFile path) (fun _ => before) before :=
  ensures_get fun _ hs => ensures_orFail (fun _ _ _ hdisk => hdisk ▸ hs) fun _ hdisk => hdisk ▸ hs

theorem ensures_workingDirectory (disk : Disk) (cwd : Option String) :
    Ensures environment (· = disk) (workingDirectory cwd)
      (fun directory left => directory = cwd.getD disk.directory ∧ left = disk) failed := by
  refine ensures_get fun s hs => ensures_pure ?_
  rintro _ rfl
  exact ⟨hs ▸ rfl, hs⟩

/-- The configuration is the one that is loaded from the disk and the environment. -/
theorem ensures_loadConfig
    {disk : Disk}
    (hfailed : failed disk)
    (path : Option String)
    (directory : String)
    (overrides : ConfigOverrides) :
    Ensures environment (· = disk) (loadConfig path directory overrides)
      (fun config left =>
        ProjectConfig.load disk environment (path.map fun p => resolvePath p directory) directory
          overrides = .ok config ∧ left = disk)
      failed := by
  refine ensures_read (ensures_get fun s hs => ensures_orFail ?_ ?_)
  · rintro config _ hload rfl
    exact ⟨hs ▸ hload, hs⟩
  · rintro _ rfl
    exact hs ▸ hfailed

/-! ### Files -/

/-- Directories were made and files were written, all of them at allowed paths. -/
def WroteOnly (disk : Disk) (allowed : String → Prop) (left : Disk) : Prop :=
  ∃ paths, Disk.Written disk paths left ∧ ∀ path ∈ paths, allowed path

variable {disk : Disk} {allowed : String → Prop}

theorem wroteOnly_self : WroteOnly disk allowed disk :=
  ⟨[], .start, nofun⟩

theorem ensures_changeDisk
    {path : String}
    {change : Disk → Except DiskError Disk}
    (h : ∀ left made, before left → change left = .ok made → before made) :
    Ensures environment before (changeDisk path change) (fun _ => before) before := by
  refine ensures_get fun s hs => ?_
  have hchange : Ensures environment (· = s.disk) (orFail (.ofDisk path) (change s.disk))
      (fun made _ => before made) before :=
    ensures_orFail (fun made _ hmade _ => h s.disk made hs hmade) fun _ hdisk => hdisk ▸ hs
  exact hchange.bind fun made => ensures_modify fun _ hmade => hmade

theorem ensures_writeFile {path : String} (text : String) (h : allowed path) :
    Ensures environment (WroteOnly disk allowed) (writeFile path text)
      (fun _ => WroteOnly disk allowed) (WroteOnly disk allowed) := by
  apply ensures_changeDisk
  rintro left made ⟨paths, hwritten, hpaths⟩ hwrite
  refine ⟨paths ++ [path], hwritten.file hwrite, ?_⟩
  exact List.forall_mem_append.mpr ⟨hpaths, List.forall_mem_singleton.mpr h⟩

theorem ensures_ensureDirectory (path : String) :
    Ensures environment (WroteOnly disk allowed) (ensureDirectory path)
      (fun _ => WroteOnly disk allowed) (WroteOnly disk allowed) := by
  apply ensures_changeDisk
  rintro left made ⟨paths, hwritten, hpaths⟩ hmake
  exact ⟨paths, hwritten.directory hmake, hpaths⟩

/-- The code of a module is written, and its source map. -/
theorem ensures_writeOutput
    {path : String}
    (output : Rendered)
    (mode : SourceMapMode)
    (hcode : allowed path)
    (hmap : allowed (mapPath path)) :
    Ensures environment (WroteOnly disk allowed) (writeOutput path output mode)
      (fun _ => WroteOnly disk allowed) (WroteOnly disk allowed) := by
  unfold writeOutput
  extract_lets writeCode rest
  have hwriteCode : ∀ code, Ensures environment (WroteOnly disk allowed) (writeCode code)
      (fun _ => WroteOnly disk allowed) (WroteOnly disk allowed) :=
    fun code => (ensures_writeFile code hcode).bind fun _ => ensures_pure fun _ hdisk => hdisk
  have hrest : ∀ made, Ensures environment (WroteOnly disk allowed) (rest made)
      (fun _ => WroteOnly disk allowed) (WroteOnly disk allowed) := by
    intro made
    unfold rest
    split
    · exact (ensures_writeFile _ hmap).bind fun _ => hwriteCode _
    · exact hwriteCode _
    · exact hwriteCode _
  split
  · exact (ensures_ensureDirectory _).bind hrest
  · exact hrest ()

end Session
end Console
end EsModules
