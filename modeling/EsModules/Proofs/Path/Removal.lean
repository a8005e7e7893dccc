import EsModules.Proofs.Path.Normal
import Mathlib.Logic.Relation

/-!
# Normal forms by removal

A path is simplified by removing segments that mean nothing: empty ones and dots, a name together
with the step to the parent behind it, and a step to the parent at the root.  Every removal keeps
the place that a walk arrives at (`Removal.normalize_eq`), and where nothing is left to remove the
segments are those of the normal form (`NormalForm.steps_eq`).  So the order of the removals does
not matter, and two paths with the same normal form are those that are cleaned to the same path
(`sameNormalForm_iff`).
-/

namespace EsModules
namespace Path

/-- One removal from the segments of a path, which may start at the root. -/
inductive Removal (rooted : Bool) : List String → List String → Prop where
  | blank
      (front : List String)
      {segment : String}
      (back : List String)
      (h : segment = "" ∨ segment = ".") :
      Removal rooted (front ++ segment :: back) (front ++ back)
  | pair
      (front : List String)
      {name : String}
      (back : List String)
      (h : name ≠ "" ∧ name ≠ "." ∧ name ≠ "..") :
      Removal rooted (front ++ name :: ".." :: back) (front ++ back)
  | top
      (back : List String)
      (h : rooted = true) :
      Removal rooted (".." :: back) back

/-- The segments that are left of a path when nothing can be removed any more. -/
structure NormalForm (path : String) (rest : List String) : Prop where
  removed : Relation.ReflTransGen (Removal (isAbsolute path)) (segments path) rest
  final : ∀ other, ¬Removal (isAbsolute path) rest other

/-- Two paths, both from the root or both not, are simplified to the same segments. -/
def SameNormalForm (first second : String) : Prop :=
  isAbsolute first = isAbsolute second ∧
    ∃ rest, NormalForm first rest ∧ NormalForm second rest

/-! ### Removals -/

section Removal

variable {rooted : Bool} {before after : List String}

/-- The steps that segments stand for. -/
def rootedSteps (rooted : Bool) (texts : List String) : List Component :=
  (if rooted then [.root] else []) ++ texts.filterMap component?

theorem Removal.normalize_eq (h : Removal rooted before after) :
    normalize (rootedSteps rooted before) = normalize (rootedSteps rooted after) := by
  unfold normalize rootedSteps
  cases h with
  | blank front back hblank =>
      have hnothing : ∀ segment : String, segment = "" ∨ segment = "." →
          component? segment = none := by
        rintro segment (rfl | rfl)
        · rfl
        · rfl
      rw [List.filterMap_append, List.filterMap_cons, hnothing _ hblank, ← List.filterMap_append]
  | @pair front name back hname =>
      have hread : component? name = some (.normal name) := by simp [component?, hname]
      have hpair : (front ++ name :: ".." :: back).filterMap component? =
          front.filterMap component? ++ .normal name :: .parent :: back.filterMap component? := by
        rw [List.filterMap_append, List.filterMap_cons, hread]
        rfl
      -- whatever the walk has reached, the name goes one step down and is taken back
      simp only [hpair, List.filterMap_append, List.foldl_append, List.foldl_cons, pushStep]
  | top back hrooted =>
      rw [hrooted]
      rfl

theorem normalize_eq_of_removed (h : Relation.ReflTransGen (Removal rooted) before after) :
    normalize (rootedSteps rooted before) = normalize (rootedSteps rooted after) := by
  induction h with
  | refl => rfl
  | tail _ hlast ih => rw [ih, hlast.normalize_eq]

theorem Removal.length_lt (h : Removal rooted before after) : after.length < before.length := by
  cases h with
  | blank front back hblank => simp
  | pair front back hname =>
      rw [List.length_append, List.length_append, List.length_cons, List.length_cons]
      omega
  | top back hrooted => simp

/-- Removals come to an end. -/
theorem exists_final (rooted : Bool) (before : List String) :
    ∃ rest, Relation.ReflTransGen (Removal rooted) before rest ∧
      ∀ other, ¬Removal rooted rest other := by
  generalize hlength : before.length = length
  induction length using Nat.strongRecOn generalizing before with
  | ind length ih =>
      by_cases hmore : ∃ after, Removal rooted before after
      · obtain ⟨after, hafter⟩ := hmore
        obtain ⟨rest, hrest, hfinal⟩ := ih after.length (hlength ▸ hafter.length_lt) after rfl
        exact ⟨rest, .head hafter hrest, hfinal⟩
      · exact ⟨before, .refl, fun other hother => hmore ⟨other, hother⟩⟩

end Removal

/-! ### What is left -/

section Final

variable {rooted : Bool} {rest : List String}

/-- Where nothing can be removed, every segment is a name or a step to the parent. -/
theorem component?_of_final
    (hfinal : ∀ other, ¬Removal rooted rest other)
    {segment : String}
    (h : segment ∈ rest) :
    component? segment = some (if segment = ".." then .parent else .normal segment) := by
  obtain ⟨front, back, rfl⟩ := List.append_of_mem h
  have hblank : ¬(segment = "" ∨ segment = ".") := fun hblank =>
    hfinal _ (.blank front back hblank)
  rw [not_or] at hblank
  by_cases hup : segment = ".."
  · simp [component?, hup]
  · simp [component?, hblank, hup]

theorem map_text_of_final (hfinal : ∀ other, ¬Removal rooted rest other) :
    (rest.filterMap component?).map Component.text = rest := by
  have hread := fun segment (hsegment : segment ∈ rest) => component?_of_final hfinal hsegment
  clear hfinal
  induction rest with
  | nil => rfl
  | cons segment rest ih =>
      rw [List.filterMap_cons, hread segment List.mem_cons_self, List.map_cons,
        ih fun other hother => hread other (List.mem_cons_of_mem _ hother)]
      by_cases hup : segment = ".."
      · simp [hup, Component.text]
      · simp [hup, Component.text]

/-- Segments of which no name has a step to the parent behind it. -/
theorem eq_ups_append_names
    (hpair : ∀ front name back, rest = front ++ name :: ".." :: back → name = "..") :
    ∃ ups names, rest = List.replicate ups ".." ++ names ∧ ".." ∉ names := by
  induction rest with
  | nil => exact ⟨0, [], rfl, by simp⟩
  | cons first rest ih =>
      obtain ⟨ups, names, hrest, hnames⟩ := ih fun front name back heq =>
        hpair (first :: front) name back (by rw [heq, List.cons_append])
      by_cases hfirst : first = ".."
      · exact ⟨ups + 1, names, by rw [hfirst, hrest, List.replicate_succ, List.cons_append], hnames⟩
      · cases ups with
        | succ ups =>
            have hup := hpair [] first (List.replicate ups ".." ++ names)
              (by rw [hrest, List.replicate_succ]; rfl)
            exact absurd hup hfirst
        | zero =>
            have hrest : rest = names := hrest
            exact ⟨0, first :: names, by rw [hrest]; rfl, by simp [hnames, Ne.symm hfirst]⟩

/-- What is left are names behind steps to the parent, of which there are none at the root. -/
theorem names_of_final (hfinal : ∀ other, ¬Removal rooted rest other) :
    ∃ ups names,
      rest = List.replicate ups ".." ++ names ∧
      (∀ name ∈ names, component? name = some (.normal name)) ∧
      (rooted = true → ups = 0) := by
  have hread : ∀ segment ∈ rest, segment ≠ ".." → component? segment = some (.normal segment) := by
    intro segment hsegment hup
    rw [component?_of_final hfinal hsegment, if_neg hup]
  have hpair : ∀ front name back, rest = front ++ name :: ".." :: back → name = ".." := by
    rintro front name back rfl
    by_contra hup
    have hname := hread name (by simp) hup
    refine hfinal _ (.pair front back ⟨?_, ?_, hup⟩)
    · rintro rfl
      cases hname
    · rintro rfl
      cases hname
  obtain ⟨ups, names, rfl, hnames⟩ := eq_ups_append_names hpair
  refine ⟨ups, names, rfl, ?_, ?_⟩
  · intro name hname
    apply hread name (List.mem_append_right _ hname)
    rintro rfl
    exact hnames hname
  · intro hrooted
    cases ups with
    | zero => rfl
    | succ ups => exact absurd (.top (List.replicate ups ".." ++ names) hrooted) (hfinal _)

theorem root_not_mem_of_final (hfinal : ∀ other, ¬Removal rooted rest other) :
    .root ∉ rest.filterMap component? := by
  intro hroot
  obtain ⟨segment, hsegment, hread⟩ := List.mem_filterMap.mp hroot
  rw [component?_of_final hfinal hsegment] at hread
  split at hread
  · cases hread
  · cases hread

/-- Where nothing can be removed, the segments are read off the steps that they stand for. -/
theorem rootedSteps_inj
    {rooted' : Bool}
    {rest' : List String}
    (hfinal : ∀ other, ¬Removal rooted rest other)
    (hfinal' : ∀ other, ¬Removal rooted' rest' other)
    (h : rootedSteps rooted rest = rootedSteps rooted' rest') :
    rooted = rooted' ∧ rest = rest' := by
  have hsame : rest.filterMap component? = rest'.filterMap component? → rest = rest' := by
    intro hsteps
    rw [← map_text_of_final hfinal, hsteps, map_text_of_final hfinal']
  cases rooted with
  | true =>
      have h : .root :: rest.filterMap component? = rootedSteps rooted' rest' := h
      cases rooted' with
      | true => exact ⟨rfl, hsame (List.cons.inj h).2⟩
      | false =>
          have hroot : .root ∈ rootedSteps false rest' := h ▸ List.mem_cons_self
          exact absurd hroot (root_not_mem_of_final hfinal')
  | false =>
      have h : rest.filterMap component? = rootedSteps rooted' rest' := h
      cases rooted' with
      | false => exact ⟨rfl, hsame h⟩
      | true =>
          have hroot : .root ∈ rest.filterMap component? := h ▸ List.mem_cons_self
          exact absurd hroot (root_not_mem_of_final hfinal)

end Final

/-! ### Normal forms of paths -/

section NormalForm

variable {path : String} {rest : List String}

theorem mem_of_removed
    {rooted : Bool}
    {before after : List String}
    (h : Relation.ReflTransGen (Removal rooted) before after)
    {segment : String}
    (hsegment : segment ∈ after) :
    segment ∈ before := by
  induction h with
  | refl => exact hsegment
  | tail _ hlast ih =>
      apply ih
      cases hlast with
      | blank front back hblank => grind
      | pair front back hname => grind
      | top back hrooted => exact List.mem_cons_of_mem _ hsegment

/-- A path has the steps of its segments, apart from a dot at its front, which leads nowhere. -/
theorem normalize_components (path : String) :
    normalize (components path) = normalize (rootedSteps (isAbsolute path) (segments path)) := by
  unfold components rootedSteps
  dsimp only
  cases isAbsolute path with
  | true => rfl
  | false =>
      simp only [Bool.false_eq_true, if_false, List.nil_append]
      split
      · rfl
      · rfl

theorem NormalForm.normal (h : NormalForm path rest) :
    Normal (rootedSteps (isAbsolute path) rest) := by
  obtain ⟨ups, names, rfl, hnames, htop⟩ := names_of_final h.final
  have hups : (List.replicate ups "..").filterMap component? = List.replicate ups .parent :=
    List.filterMap_replicate_of_some (by decide)
  have hnormal : names.filterMap component? = names.map .normal := by
    rw [← List.filterMap_eq_map]
    exact List.filterMap_congr hnames
  have hinner : ∀ name ∈ names, Component.Inner (.normal name) := by
    intro name hname
    have hmem := mem_of_removed h.removed (List.mem_append_right _ hname)
    exact inner_of_component? (not_mem_of_mem_segments hmem) (hnames name hname)
  unfold rootedSteps
  rw [List.filterMap_append, hups, hnormal]
  cases habsolute : isAbsolute path with
  | false => exact .relative ups hinner
  | true =>
      rw [htop habsolute]
      exact .absolute hinner

/-- The segments that are left are the steps of the normal form. -/
theorem NormalForm.steps_eq (h : NormalForm path rest) :
    normalize (components path) = rootedSteps (isAbsolute path) rest := by
  rw [normalize_components, normalize_eq_of_removed h.removed, h.normal.normalize_eq]

theorem exists_normalForm (path : String) : ∃ rest, NormalForm path rest := by
  obtain ⟨rest, hremoved, hfinal⟩ := exists_final (isAbsolute path) (segments path)
  exact ⟨rest, hremoved, hfinal⟩

/-- Two paths have the same normal form if they are cleaned to the same path. -/
theorem sameNormalForm_iff {first second : String} :
    SameNormalForm first second ↔
      normalize (components first) = normalize (components second) := by
  constructor
  · rintro ⟨habsolute, rest, hfirst, hsecond⟩
    rw [hfirst.steps_eq, hsecond.steps_eq, habsolute]
  · intro h
    obtain ⟨rest, hfirst⟩ := exists_normalForm first
    obtain ⟨rest', hsecond⟩ := exists_normalForm second
    rw [hfirst.steps_eq, hsecond.steps_eq] at h
    obtain ⟨habsolute, rfl⟩ := rootedSteps_inj hfirst.final hsecond.final h
    exact ⟨habsolute, rest, hfirst, hsecond⟩

end NormalForm

end Path
end EsModules
