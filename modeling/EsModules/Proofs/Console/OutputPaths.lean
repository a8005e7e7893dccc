import EsModules.Proofs.Disk
import EsModules.Proofs.Graph.NamesByIdentity

/-!
# Where output files stand

The output file of a name stands below the output directory exactly if the directory part of the
name does not lead out of it (`below_output_iff`).  The last segment never does, because a text is
put behind it.  A name that is taken from a file, or that the command line has accepted, has no
step up in it and is confined to every directory.
-/

namespace EsModules

open Path

namespace Path

/-- The second path stands below the first one and is not the same. -/
def Below (directory path : String) : Prop :=
  ∃ names, names ≠ [] ∧
    normalize (components path) = normalize (components directory) ++ names.map .normal

/-- The steps of all segments of a name but the last one. -/
def nameSteps (name : String) : List Component :=
  (segments name).dropLast.filterMap component?

/-- The directory part of a name leads to the directory or to a place below it. -/
def Confined (directory name : String) : Prop :=
  ∃ names : List String,
    normalize (components directory ++ nameSteps name) =
      normalize (components directory) ++ names.map .normal

theorem segments_of_piece {piece : String} (h : '/' ∉ piece.toList) : segments piece = [piece] := by
  have hsegments := segments_intercalate (List.cons_ne_nil piece [])
    (List.forall_mem_singleton.mpr h)
  rwa [String.intercalate_singleton] at hsegments

theorem isAbsolute_of_piece {piece : String} (h : '/' ∉ piece.toList) :
    isAbsolute piece = false := by
  by_contra habsolute
  rw [Bool.not_eq_false, isAbsolute, beq_iff_eq] at habsolute
  exact h (List.mem_of_head? habsolute)

theorem join_ne_empty {directory : String} (h : directory ≠ "") (path : String) :
    join directory path ≠ "" := by
  unfold join
  split
  · rintro rfl
    contradiction
  · split
    · rename_i hempty
      exact absurd (beq_iff_eq.mp hempty) h
    · split
      · simp [h]
      · simp

/-- A relative path may be joined to a directory before the directory is joined to another. -/
theorem join_assoc
    {middle path : String}
    (hne : middle ≠ "")
    (hpath : isAbsolute path = false)
    (directory : String) :
    join directory (join middle path) = join (join directory middle) path := by
  have hchars : middle.toList ≠ [] := by simpa using hne
  have hsame : isAbsolute (join middle path) = isAbsolute middle := by
    obtain ⟨c, cs, hcs⟩ := List.exists_cons_of_ne_nil hchars
    rw [join_eq hpath]
    simp [isAbsolute, hcs]
  cases hmiddle : isAbsolute middle with
  | true =>
      rw [hmiddle] at hsame
      unfold join at hsame ⊢
      rw [if_pos hmiddle, if_pos hsame]
  | false =>
      have hbetween : separator (directory ++ separator directory ++ middle) =
          separator middle := by
        simp [separator, hne, List.getLast?_append_of_ne_nil _ hchars]
      rw [hmiddle] at hsame
      rw [join_eq hsame, join_eq hpath, join_eq hpath, join_eq hmiddle, hbetween]
      simp only [String.append_assoc]

theorem foldl_join_ne_empty {directory : String} (h : directory ≠ "") (pieces : List String) :
    pieces.foldl join directory ≠ "" := by
  induction pieces generalizing directory with
  | nil => exact h
  | cons piece pieces ih => exact ih (join_ne_empty h piece)

theorem join_foldl_join
    {pieces : List String}
    {middle : String}
    (hpieces : ∀ piece ∈ pieces, '/' ∉ piece.toList)
    (hne : middle ≠ "")
    (directory : String) :
    join directory (pieces.foldl join middle) = pieces.foldl join (join directory middle) := by
  induction pieces generalizing middle with
  | nil => rfl
  | cons piece pieces ih =>
      obtain ⟨hpiece, hrest⟩ := List.forall_mem_cons.mp hpieces
      rw [List.foldl_cons, ih hrest (join_ne_empty hne piece),
        join_assoc hne (isAbsolute_of_piece hpiece)]
      rfl

/-- The steps of a directory with pieces joined to it. -/
theorem components_foldl_join
    {pieces : List String}
    {directory : String}
    (hpieces : ∀ piece ∈ pieces, '/' ∉ piece.toList)
    (hne : directory ≠ "") :
    components (pieces.foldl join directory) =
      components directory ++ pieces.filterMap component? := by
  induction pieces generalizing directory with
  | nil => simp
  | cons piece pieces ih =>
      obtain ⟨hpiece, hrest⟩ := List.forall_mem_cons.mp hpieces
      rw [List.foldl_cons, ih hrest (join_ne_empty hne piece),
        components_join hne (isAbsolute_of_piece hpiece), segments_of_piece hpiece,
        List.append_assoc, ← List.filterMap_append, List.singleton_append]

theorem not_mem_of_mem_dropLast (name : String) :
    ∀ piece ∈ (segments name).dropLast, '/' ∉ piece.toList :=
  fun _ hpiece => not_mem_of_mem_segments ((List.dropLast_sublist _).subset hpiece)

section Output

variable {text : String} (hslash : '/' ∉ text.toList) (hchar : ∃ c ∈ text.toList, c ≠ '.')

include hslash

/-- A text behind the segments of a name belongs to the last one. -/
theorem exists_last (name : String) :
    ∃ last, '/' ∉ (last ++ text).toList ∧
      ∀ directory, (segments name).foldl join directory ++ text =
        join ((segments name).dropLast.foldl join directory) (last ++ text) := by
  obtain ⟨front, last, hsegments⟩ := (List.eq_nil_or_concat' _).resolve_left (segments_ne_nil name)
  have hmem : last ∈ segments name := by
    rw [hsegments]
    exact List.mem_concat_self
  have hlast := not_mem_of_mem_segments hmem
  have hwhole : '/' ∉ (last ++ text).toList := by simp [hlast, hslash]
  refine ⟨last, hwhole, fun directory => ?_⟩
  rw [hsegments, List.dropLast_concat, List.foldl_append, List.foldl_cons, List.foldl_nil,
    join_eq (isAbsolute_of_piece hlast), join_eq (isAbsolute_of_piece hwhole)]
  simp only [String.append_assoc]

/-- An output file may be looked at from the directory that the output directory is in. -/
theorem join_output
    {outDir : String}
    (hne : outDir ≠ "")
    (directory name : String) :
    join directory ((segments name).foldl join outDir ++ text) =
      (segments name).foldl join (join directory outDir) ++ text := by
  obtain ⟨last, hlast, houtput⟩ := exists_last hslash name
  rw [houtput, houtput, join_assoc (foldl_join_ne_empty hne _) (isAbsolute_of_piece hlast),
    join_foldl_join (not_mem_of_mem_dropLast name) hne]

include hchar

theorem components_output
    {directory : String}
    (hne : directory ≠ "")
    (name : String) :
    ∃ last, components ((segments name).foldl join directory ++ text) =
      components directory ++ nameSteps name ++ [.normal last] := by
  obtain ⟨last, hlast, houtput⟩ := exists_last hslash name
  have hinner : Component.Inner (.normal (last ++ text)) := by
    obtain ⟨c, hc, hdot⟩ := hchar
    exact inner_normal hlast ⟨c, by simp [hc], hdot⟩
  have hread : [last ++ text].filterMap component? = [.normal (last ++ text)] :=
    filterMap_of_inner (List.forall_mem_singleton.mpr hinner)
  refine ⟨last ++ text, ?_⟩
  rw [houtput, components_join (foldl_join_ne_empty hne _) (isAbsolute_of_piece hlast),
    segments_of_piece hlast, hread,
    components_foldl_join (not_mem_of_mem_dropLast name) hne, nameSteps]

/-- An output file stands below the directory if the directory part of its name does not lead out
of it. -/
theorem below_output_iff
    {directory : String}
    (hne : directory ≠ "")
    (name : String) :
    Below directory ((segments name).foldl join directory ++ text) ↔ Confined directory name := by
  obtain ⟨last, hsteps⟩ := components_output hslash hchar hne name
  unfold Below Confined
  rw [hsteps, normalize_append_normal]
  constructor
  · rintro ⟨names, hnames, hnormal⟩
    obtain ⟨front, back, rfl⟩ := (List.eq_nil_or_concat' _).resolve_left hnames
    rw [List.map_append, ← List.append_assoc] at hnormal
    exact ⟨front, (List.append_inj' hnormal rfl).1⟩
  · rintro ⟨names, hnormal⟩
    refine ⟨names ++ [last], by simp, ?_⟩
    rw [hnormal, List.map_append, List.append_assoc]
    rfl

end Output

/-! ### Detours -/

/-- Detours of the two paths do not matter. -/
theorem below_clean_iff {directory path : String} :
    Below (clean directory) (clean path) ↔ Below directory path := by
  unfold Below
  rw [normalize_components_clean, normalize_components_clean]

/-- Detours of the directory do not matter. -/
theorem confined_clean_iff {directory name : String} :
    Confined (clean directory) name ↔ Confined directory name := by
  unfold Confined
  rw [normalize_append, normalize_append, foldl_pushStep_clean, normalize_components_clean]

/-! ### Names that stay -/

theorem exists_names
    {steps : List Component}
    (h : ∀ step ∈ steps, ∃ name, step = .normal name) :
    ∃ names : List String, steps = names.map .normal := by
  induction steps with
  | nil => exact ⟨[], rfl⟩
  | cons step steps ih =>
      obtain ⟨⟨name, rfl⟩, hrest⟩ := List.forall_mem_cons.mp h
      obtain ⟨names, rfl⟩ := ih hrest
      exact ⟨name :: names, rfl⟩

/-- A directory part without `..` leads nowhere else. -/
theorem confined_of_not_mem
    {name : String}
    (h : ".." ∉ (segments name).dropLast)
    (directory : String) :
    Confined directory name := by
  have hsteps : ∀ step ∈ nameSteps name, ∃ piece, step = .normal piece := by
    intro step hstep
    obtain ⟨piece, hpiece, hread⟩ := List.mem_filterMap.mp hstep
    unfold component? at hread
    split at hread
    · cases hread
    · split at hread
      · rename_i hup
        exact absurd (beq_iff_eq.mp hup ▸ hpiece) h
      · exact ⟨piece, (Option.some_inj.mp hread).symm⟩
  obtain ⟨names, hnames⟩ := exists_names hsteps
  refine ⟨names, ?_⟩
  rw [hnames, normalize_append, foldl_pushStep_names, List.reverse_append, List.reverse_reverse]
  rfl

/-- In a normal form only names stand behind a name. -/
theorem Normal.pairwise {steps : List Component} (h : Normal steps) :
    steps.Pairwise fun a b => (∃ name, a = .normal name) → ∃ name, b = .normal name := by
  have hnames : ∀ names : List String, (names.map Component.normal).Pairwise
      fun a b => (∃ name, a = .normal name) → ∃ name, b = .normal name := by
    intro names
    rw [List.pairwise_map]
    exact List.pairwise_of_forall fun _ name _ => ⟨name, rfl⟩
  cases h with
  | absolute _ =>
      refine List.pairwise_cons.mpr ⟨?_, hnames _⟩
      rintro _ _ ⟨_, ⟨⟩⟩
  | relative ups _ =>
      refine List.pairwise_append.mpr ⟨?_, hnames _, ?_⟩
      · refine List.pairwise_replicate.mpr (.inr ?_)
        rintro ⟨_, ⟨⟩⟩
      · intro a ha b _
        rw [List.eq_of_mem_replicate ha]
        rintro ⟨_, ⟨⟩⟩

theorem inner_of_mem_components
    {path name : String}
    (h : .normal name ∈ components path) :
    Component.Inner (.normal name) := by
  have hwell := wellFormed_components path
  generalize components path = steps at h hwell
  cases hwell with
  | inner hinner => exact hinner _ h
  | root hinner => exact hinner _ ((List.mem_cons.mp h).resolve_left nofun)
  | current hinner => exact hinner _ ((List.mem_cons.mp h).resolve_left nofun)

end Path

/-- The part of a path that a name is made of does not begin with a step up. -/
theorem head?_ne_parent_of_registrationName?
    {root path name last : String}
    {outer : List Component}
    (h : registrationName? root path = some name)
    (hpath : components path = rootSteps root ++ outer ++ [.normal last]) :
    outer.head? ≠ some .parent := by
  rw [registrationName?_eq] at h
  obtain ⟨relative, hrelative, h⟩ := Option.bind_eq_some_iff.mp h
  have hsteps := components_of_relative? hrelative
  rw [hpath, List.append_assoc] at hsteps
  split at h
  · cases h
  · rename_i hhead
    intro hparent
    rw [← List.append_cancel_left hsteps, List.head?_append, hparent] at hhead
    exact hhead rfl

/-- The name that a file has by its path in normal form goes down only. -/
theorem not_mem_of_registrationName?
    {root path name : String}
    (h : registrationName? root (clean path) = some name) :
    ".." ∉ (segments name).dropLast := by
  obtain ⟨outer, last, hpath, hroot, rfl⟩ := steps_of_registrationName? h
  have hparent := head?_ne_parent_of_registrationName? h hpath
  have hnil : normalize (components path) ≠ [] := by
    intro hnil
    rw [clean_of_normalize_nil hnil] at hpath
    have hlast := congrArg List.getLast? hpath
    rw [List.getLast?_concat] at hlast
    exact nomatch hlast
  have hnormal := normal_normalize (wellFormed_components path)
  rw [← components_clean hnil, hpath] at hnormal
  rw [segments_of_name hpath hroot, List.dropLast_concat]
  intro hup
  obtain ⟨step, hstep, htext⟩ := List.mem_map.mp hup
  obtain ⟨name, rfl⟩ : ∃ name, step = .normal name := by
    cases outer with
    | nil => cases hstep
    | cons first rest =>
        have hfirst : ∃ name, first = .normal name := by
          cases first with
          | root => exact absurd rfl hroot
          | parent => exact absurd rfl hparent
          | current => exact absurd (by simp) hnormal.current_not_mem
          | normal name => exact ⟨name, rfl⟩
        rw [List.append_assoc] at hnormal
        have hpairs := (List.pairwise_append.mp hnormal.pairwise).2.1
        have hbehind := (List.pairwise_cons.mp (List.pairwise_append.mp hpairs).1).1
        rcases List.mem_cons.mp hstep with rfl | hstep
        · exact hfirst
        · exact hbehind step hstep hfirst
  have hmem : .normal name ∈ components (clean path) := by
    rw [hpath]
    simp [hstep]
  have hread := (inner_of_mem_components hmem).read
  rw [htext] at hread
  cases hread

/-- The name of a local module goes down only. -/
theorem Graph.Reached.not_mem_of_local
    {g : Graph}
    {m : GraphModule}
    (hg : g.Reached)
    (hm : m ∈ g.modules)
    (hlocal : m.external = false) :
    ".." ∉ (segments m.name).dropLast := by
  rcases hg.name_cases hm hlocal with ⟨-, hname⟩ | ⟨-, hname, -⟩
  · cases (hg.coherent.genuine m hm).origin with
    | external hexternal =>
        rw [hexternal] at hlocal
        cases hlocal
    | file _ _ hid _ =>
        rw [hid] at hname
        exact not_mem_of_registrationName? hname
  · rw [hname]
    decide

/-- A name that the command line accepts goes down only. -/
theorem Console.not_mem_of_checkRegistryName
    {name checked : String}
    (h : Console.checkRegistryName name = .ok checked) :
    ".." ∉ (segments name).dropLast := by
  unfold Console.checkRegistryName at h
  split at h
  · cases h
  · split at h
    · cases h
    · split at h
      · cases h
      · rename_i hbad
        intro hup
        exact hbad (List.any_eq_true.mpr ⟨"..", (List.dropLast_sublist _).subset hup, rfl⟩)

end EsModules
