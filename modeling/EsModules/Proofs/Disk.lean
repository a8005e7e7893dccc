import EsModules.Disk
import EsModules.Proofs.Catalog
import EsModules.Proofs.Path.Normal

/-!
# What changes on a disk

A path leads to the place that its normal form names (`place_of_locate`), so a file is written
there and nowhere else.  Making directories leaves all files as they are.  After any number of such
changes (`Written`) a file differs only at the place of a path that was written to.
-/

namespace EsModules
namespace Disk

open Path

variable {disk made after : Disk} {path place text : String}

/-- The place that a path names, without detours. -/
def placeOf (disk : Disk) (path : String) : String :=
  clean (join disk.directory path)

/-! ### Following paths -/

/-- One step from a place in normal form is one step of its normal form. -/
theorem canonical_follow
    {step : Component}
    (h : Canonical place)
    (hstep : step.Inner) :
    Canonical (follow place step) ∧
      components (follow place step) = (pushStep (components place).reverse step).reverse := by
  cases step with
  | root => cases hstep.read
  | current => cases hstep.read
  | normal name =>
      have habsolute : isAbsolute name = false := by
        simpa using isAbsolute_append hstep.name_piece.1 hstep.name_piece.2 ""
      have hne : place ≠ "" := by
        rintro rfl
        cases h.isAbsolute
      have hsegments := segments_of_inner (by simp) (List.forall_mem_singleton.mpr hstep)
      have hread := filterMap_of_inner (List.forall_mem_singleton.mpr hstep)
      rw [← hsegments] at hread
      have hname : (segments name).filterMap component? = [.normal name] := hread
      refine ⟨h.join hstep, ?_⟩
      have hpush : pushStep (components place).reverse (.normal name) =
          .normal name :: (components place).reverse := rfl
      rw [follow, components_join hne habsolute, hname, hpush, List.reverse_cons,
        List.reverse_reverse]
  | parent =>
      obtain ⟨names, hnames, rfl⟩ := h
      have hsteps := components_of_names hnames
      rcases List.eq_nil_or_concat' names with rfl | ⟨outer, last, rfl⟩
      · exact ⟨⟨[], hnames, rfl⟩, rfl⟩
      · obtain ⟨houter, -⟩ := List.forall_mem_append.mp hnames
        have hparent : parent? (ofComponents (.root :: (outer ++ [last]).map .normal)) =
            some (ofComponents (.root :: outer.map .normal)) := by
          have hlast : components (ofComponents (.root :: (outer ++ [last]).map .normal)) =
              .root :: outer.map .normal ++ [.normal last] := by
            rw [hsteps, List.map_append]
            rfl
          exact parent?_of_components hlast
        rw [follow, hparent, Option.getD_some, hsteps, components_of_names houter]
        exact ⟨⟨outer, houter, rfl⟩, by simp [pushStep]⟩

theorem canonical_walk
    {steps : List Component}
    {start : String}
    (hstart : Canonical start)
    (hsteps : ∀ step ∈ steps, step.Inner)
    (h : disk.walk start steps = .ok place) :
    Canonical place ∧
      components place = (steps.foldl pushStep (components start).reverse).reverse := by
  induction steps generalizing start with
  | nil =>
      cases h
      exact ⟨hstart, (List.reverse_reverse _).symm⟩
  | cons step steps ih =>
      obtain ⟨hstep, hrest⟩ := List.forall_mem_cons.mp hsteps
      obtain ⟨hfollow, hcomponents⟩ := canonical_follow hstart hstep
      rw [walk] at h
      split at h
      · obtain ⟨hplace, hsame⟩ := ih hfollow hrest h
        refine ⟨hplace, ?_⟩
        rw [hsame, hcomponents, List.reverse_reverse, List.foldl_cons]
      · cases h
      · cases h

/-- A path leads to the place that it names. -/
theorem place_of_locate
    (hdirectory : isAbsolute disk.directory = true)
    (h : disk.locate path = .ok place) :
    place = disk.placeOf path := by
  have habsolute := isAbsolute_join hdirectory path
  unfold locate at h
  split at h
  · cases h
  · obtain ⟨steps, hsteps, hinner⟩ : ∃ steps, components (join disk.directory path) =
        .root :: steps ∧ ∀ step ∈ steps, step.Inner := by
      have hwell := wellFormed_components (join disk.directory path)
      have hhead := (head?_components _).mpr habsolute
      obtain ⟨steps, hsteps⟩ := List.head?_eq_some_iff.mp hhead
      rw [hsteps] at hwell
      cases hwell with
      | inner hinner => cases (hinner .root List.mem_cons_self).read
      | root hinner => exact ⟨steps, hsteps, hinner⟩
    have hroot : Canonical "/" := ⟨[], nofun, rfl⟩
    rw [hsteps] at h
    obtain ⟨hplace, hwalk⟩ := canonical_walk hroot hinner h
    refine hplace.eq_of_components (canonical_clean habsolute) ?_
    have hnormal : normalize (components (join disk.directory path)) ≠ [] := by
      intro hnil
      have hclean := isAbsolute_clean (join disk.directory path)
      rw [clean_of_normalize_nil hnil, habsolute] at hclean
      cases hclean
    rw [placeOf, components_clean hnormal, hwalk, hsteps]
    rfl

/-! ### Entries -/

theorem entryAt?_put_of_ne
    {other : String}
    (h : other ≠ place)
    (entry : DiskEntry)
    (disk : Disk) :
    (disk.put place entry).entryAt? other = disk.entryAt? other := by
  have hother : (place == other) = false := beq_eq_false_iff_ne.mpr h.symm
  have hfind : ∀ entries : List (String × DiskEntry),
      ((entries.map fun e => if e.1 == place then (place, entry) else e).find?
        (·.1 == other)).map (·.2) = (entries.find? (·.1 == other)).map (·.2) := by
    intro entries
    induction entries with
    | nil => rfl
    | cons first rest ih =>
        rw [List.map_cons, List.find?_cons, List.find?_cons]
        by_cases hfirst : first.1 = place
        · simp only [hfirst, beq_self_eq_true, if_true, hother, ih]
        · simp only [beq_eq_false_iff_ne.mpr hfirst, Bool.false_eq_true, if_false]
          cases first.1 == other with
          | true => rfl
          | false => exact ih
  unfold put entryAt?
  split
  · rfl
  · split
    · exact hfind disk.entries
    · rw [List.find?_append, List.find?_cons_of_neg (by simp [hother]), List.find?_nil,
        Option.or_none]

theorem entryAt?_put_self
    (h : place ≠ "/")
    (entry : DiskEntry)
    (disk : Disk) :
    (disk.put place entry).entryAt? place = some entry := by
  unfold put entryAt?
  rw [if_neg (by simpa using h)]
  split
  · rename_i hany
    have hfind : ∀ entries : List (String × DiskEntry), entries.any (·.1 == place) = true →
        ((entries.map fun e => if e.1 == place then (place, entry) else e).find?
          (·.1 == place)).map (·.2) = some entry := by
      intro entries
      induction entries with
      | nil => exact nofun
      | cons first rest ih =>
          intro hany
          rw [List.map_cons, List.find?_cons]
          by_cases hfirst : first.1 = place
          · simp only [hfirst, beq_self_eq_true, if_true, Option.map_some]
          · rw [List.any_cons, beq_eq_false_iff_ne.mpr hfirst, Bool.false_or] at hany
            simp only [beq_eq_false_iff_ne.mpr hfirst, Bool.false_eq_true, if_false, ih hany]
    exact hfind disk.entries hany
  · rename_i hnone
    have hfind : disk.entries.find? (·.1 == place) = none := by
      rw [List.find?_eq_none]
      intro e he hsame
      exact hnone (List.any_eq_true.mpr ⟨e, he, hsame⟩)
    rw [List.find?_append, hfind, Option.none_or, List.find?_cons_of_pos (by simp)]
    rfl

/-! ### Files -/

/-- The disks have the same working directory and the same files. -/
structure SameFiles (before after : Disk) : Prop where
  directory : after.directory = before.directory
  files : ∀ place text,
    after.entryAt? place = some (.file text) ↔ before.entryAt? place = some (.file text)

theorem SameFiles.refl (disk : Disk) : SameFiles disk disk :=
  ⟨rfl, fun _ _ => Iff.rfl⟩

theorem SameFiles.trans (h : SameFiles disk made) (h' : SameFiles made after) :
    SameFiles disk after :=
  ⟨h'.directory.trans h.directory,
    fun place text => (h'.files place text).trans (h.files place text)⟩

theorem directory_put (disk : Disk) (place : String) (entry : DiskEntry) :
    (disk.put place entry).directory = disk.directory := by
  unfold put
  split
  · rfl
  · rfl

theorem sameFiles_makeDirectory (h : makeDirectory path disk = .ok made) :
    SameFiles disk made := by
  obtain ⟨place, -, h⟩ := bind_eq_ok.mp h
  split at h
  · cases h
  · rename_i hnone
    cases h
    rw [Bool.not_eq_true, Option.isSome_eq_false_iff, Option.isNone_iff_eq_none] at hnone
    have hroot : place ≠ "/" := by
      rintro rfl
      cases hnone
    refine ⟨directory_put disk place .directory, fun other text => ?_⟩
    by_cases hother : other = place
    · rw [hother, entryAt?_put_self hroot, hnone]
      exact ⟨nofun, nofun⟩
    · rw [entryAt?_put_of_ne hother]

theorem sameFiles_makeDirectories
    {depth : Nat}
    (h : makeDirectories depth path disk = .ok made) :
    SameFiles disk made := by
  induction depth generalizing path made with
  | zero =>
      cases h
      exact .refl disk
  | succ depth ih =>
      rw [makeDirectories] at h
      split at h
      · rename_i hmake
        cases h
        exact sameFiles_makeDirectory hmake
      · -- Whatever directories were made above, one more is made or none.
        extract_lets finish at h
        have hlast : ∀ above, SameFiles disk above → finish above = .ok made →
            SameFiles disk made := by
          intro above habove hmade
          unfold finish at hmade
          split at hmade
          · rename_i hmake
            cases hmade
            exact habove.trans (sameFiles_makeDirectory hmake)
          · split at hmade
            · cases hmade
              exact habove
            · cases hmade
        split at h
        · split at h
          · exact hlast disk (.refl disk) h
          · obtain ⟨above, habove, hmade⟩ := bind_eq_ok.mp h
            exact hlast above (ih habove) hmade
        · cases h
      · split at h
        · cases h
          exact .refl disk
        · cases h

theorem sameFiles_ensureDirectory (h : ensureDirectory path disk = .ok made) :
    SameFiles disk made :=
  sameFiles_makeDirectories h

/-- A file is written at the place of its path only. -/
theorem files_of_write
    (hdirectory : isAbsolute disk.directory = true)
    (h : write path text disk = .ok after) :
    after.directory = disk.directory ∧
      ∀ place, place ≠ disk.placeOf path → after.entryAt? place = disk.entryAt? place := by
  obtain ⟨place, hplace, h⟩ := bind_eq_ok.mp h
  have hsame := place_of_locate hdirectory hplace
  split at h
  · cases h
  · cases h
    refine ⟨directory_put disk place _, fun other hother => ?_⟩
    rw [entryAt?_put_of_ne (hsame ▸ hother)]

/-- A disk that directories were made on and files were written to, with the paths of the
files. -/
inductive Written (disk : Disk) : List String → Disk → Prop where
  | start : Written disk [] disk
  | directory
      {paths : List String}
      {before after : Disk}
      {path : String}
      (h : Written disk paths before)
      (hmade : ensureDirectory path before = .ok after) :
      Written disk paths after
  | file
      {paths : List String}
      {before after : Disk}
      {path text : String}
      (h : Written disk paths before)
      (hwritten : write path text before = .ok after) :
      Written disk (paths ++ [path]) after

/-- Away from the places of the paths, the files are as before. -/
theorem Written.unchanged
    {paths : List String}
    (hdirectory : isAbsolute disk.directory = true)
    (h : Written disk paths after) :
    after.directory = disk.directory ∧
      ∀ place, (∀ path ∈ paths, place ≠ disk.placeOf path) → ∀ text,
        (after.entryAt? place = some (.file text) ↔ disk.entryAt? place = some (.file text)) := by
  induction h with
  | start => exact ⟨rfl, fun _ _ _ => Iff.rfl⟩
  | directory _ hmade ih =>
      have hsame := sameFiles_ensureDirectory hmade
      refine ⟨hsame.directory.trans ih.1, fun place hplace text => ?_⟩
      exact (hsame.files place text).trans (ih.2 place hplace text)
  | @file paths before after path _ _ hwritten ih =>
      obtain ⟨hsame, hfiles⟩ := ih
      obtain ⟨hafter, hother⟩ := files_of_write (hsame ▸ hdirectory) hwritten
      refine ⟨hafter.trans hsame, fun place hplace text => ?_⟩
      obtain ⟨hearlier, hlast⟩ := List.forall_mem_append.mp hplace
      have hne : place ≠ before.placeOf path := by
        rw [placeOf, hsame]
        exact hlast path List.mem_cons_self
      rw [hother place hne]
      exact hfiles place hearlier text

end Disk
end EsModules
