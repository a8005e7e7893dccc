import EsModules.Proofs.Path.Normal

/-!
# Walks below a directory

A walk along a relative path goes down by names and up by `..`.  While it does not go up from the
place that its names are counted from (`Walks`), it arrives at the same names whatever stands above
that place: at the root directory of a file tree, where a candidate for an import is looked for, or
at nothing, where the name of a registered module begins.  Once it goes up from there, the two
differ for good: with nothing above, the step to the parent stays at the front.
-/

namespace EsModules
namespace Path

/-- A walk from names to names, innermost first, that does not go up from where they are counted
from. -/
inductive Walks : List String → List Component → List String → Prop where
  | done (names : List String) : Walks names [] names
  | current
      {names final : List String}
      {steps : List Component}
      (h : Walks names steps final) :
      Walks names (.current :: steps) final
  | down
      {name : String}
      {names final : List String}
      {steps : List Component}
      (h : Walks (name :: names) steps final) :
      Walks names (.normal name :: steps) final
  | up
      {name : String}
      {names final : List String}
      {steps : List Component}
      (h : Walks names steps final) :
      Walks (name :: names) (.parent :: steps) final

section Walks

variable {names final : List String} {steps front back : List Component}

/-- What stands above the names has no part in the walk. -/
theorem Walks.foldl (h : Walks names steps final) (above : List Component) :
    steps.foldl pushStep (names.map .normal ++ above) = final.map .normal ++ above := by
  induction h with
  | done names => rfl
  | current _ ih => exact ih
  | down _ ih => exact ih
  | up _ ih => exact ih

theorem Walks.of_append (h : Walks names (front ++ back) final) :
    ∃ middle, Walks names front middle ∧ Walks middle back final := by
  induction front generalizing names with
  | nil => exact ⟨names, .done names, h⟩
  | cons step front ih =>
      cases h with
      | current h =>
          obtain ⟨middle, hfront, hback⟩ := ih h
          exact ⟨middle, .current hfront, hback⟩
      | down h =>
          obtain ⟨middle, hfront, hback⟩ := ih h
          exact ⟨middle, .down hfront, hback⟩
      | up h =>
          obtain ⟨middle, hfront, hback⟩ := ih h
          exact ⟨middle, .up hfront, hback⟩

/-- A walk goes on to its end or comes to a step up from where the names are counted from. -/
theorem walks_or_climbs (hsteps : .root ∉ steps) (names : List String) :
    (∃ final, Walks names steps final) ∨
      ∃ front rest, steps = front ++ .parent :: rest ∧ Walks names front [] := by
  induction steps generalizing names with
  | nil => exact .inl ⟨names, .done names⟩
  | cons step steps ih =>
      have hrest := ih (List.not_mem_of_not_mem_cons hsteps)
      cases step with
      | root => exact absurd List.mem_cons_self hsteps
      | current =>
          rcases hrest names with ⟨final, h⟩ | ⟨front, rest, rfl, h⟩
          · exact .inl ⟨final, .current h⟩
          · exact .inr ⟨.current :: front, rest, rfl, .current h⟩
      | normal name =>
          rcases hrest (name :: names) with ⟨final, h⟩ | ⟨front, rest, rfl, h⟩
          · exact .inl ⟨final, .down h⟩
          · exact .inr ⟨.normal name :: front, rest, rfl, .down h⟩
      | parent =>
          cases names with
          | nil => exact .inr ⟨[], steps, rfl, .done []⟩
          | cons name names =>
              rcases hrest names with ⟨final, h⟩ | ⟨front, rest, rfl, h⟩
              · exact .inl ⟨final, .up h⟩
              · exact .inr ⟨.parent :: front, rest, rfl, .up h⟩

/-- A step to the parent with nothing above it is never taken back. -/
theorem foldl_pushStep_climbed (steps stack : List Component) :
    ∃ stack', steps.foldl pushStep (stack ++ [.parent]) = stack' ++ [.parent] := by
  induction steps generalizing stack with
  | nil => exact ⟨stack, rfl⟩
  | cons step steps ih =>
      rw [List.foldl_cons]
      cases step with
      | root => exact ih (.root :: stack)
      | current => exact ih stack
      | normal name => exact ih (.normal name :: stack)
      | parent =>
          cases stack with
          | nil => exact ih [.parent]
          | cons last stack =>
              cases last with
              | root => exact ih (.root :: stack)
              | current => exact ih (.parent :: .current :: stack)
              | parent => exact ih (.parent :: .parent :: stack)
              | normal name => exact ih stack

end Walks

/-! ### Leaving a directory -/

/-- The walk along some steps from a directory goes up from the root. -/
def GoesUp (root directory steps : List Component) : Prop :=
  ∃ front rest, steps = front ++ .parent :: rest ∧ normalize (directory ++ front) = root

/-- All places on the walk along some steps from a directory are the root or below it. -/
def StaysWithin (root directory steps : List Component) : Prop :=
  ∀ front, front <+: steps → root <+: normalize (directory ++ front)

section Leaving

variable {root steps : List Component} {names : List String}

/-- Names below a root in normal form, and steps from there. -/
theorem normalize_below
    (hroot : normalize root = root)
    (names : List String)
    (steps : List Component) :
    normalize (root ++ names.map .normal ++ steps) =
      (steps.foldl pushStep (names.reverse.map .normal ++ root.reverse)).reverse := by
  rw [normalize_append, List.foldl_append, foldl_pushStep_names,
    List.reverse_eq_iff.mp hroot, List.map_reverse]

theorem Walks.normalize_eq
    {final : List String}
    (h : Walks names.reverse steps final)
    (hroot : normalize root = root) :
    normalize (root ++ names.map .normal ++ steps) = root ++ final.reverse.map .normal := by
  rw [normalize_below hroot, h.foldl, List.reverse_append, List.reverse_reverse, List.map_reverse]

/-- A walk that does not go up from the root is one among names. -/
theorem not_goesUp_iff
    (hroot : normalize root = root)
    (hsteps : .root ∉ steps) :
    ¬GoesUp root (root ++ names.map .normal) steps ↔ ∃ final, Walks names.reverse steps final := by
  constructor
  · intro hstays
    rcases walks_or_climbs hsteps names.reverse with hwalks | ⟨front, rest, rfl, hfront⟩
    · exact hwalks
    · exfalso
      refine hstays ⟨front, rest, rfl, ?_⟩
      rw [hfront.normalize_eq hroot]
      simp
  · rintro ⟨final, hwalks⟩ ⟨front, rest, rfl, hfront⟩
    obtain ⟨middle, hmiddle, hup⟩ := hwalks.of_append
    rw [hmiddle.normalize_eq hroot] at hfront
    cases hup with
    | up h => simp at hfront

/-- Below a directory other than the root of the file tree, a walk that goes up comes to a place
that is not below it. -/
theorem staysWithin_iff
    (hroot : Normal root)
    (habsolute : root.head? = some .root)
    (hne : root ≠ [.root])
    (hsteps : .root ∉ steps) :
    StaysWithin root (root ++ names.map .normal) steps ↔
      ¬GoesUp root (root ++ names.map .normal) steps := by
  constructor
  · rintro hstays ⟨front, rest, rfl, hfront⟩
    have hparent := hstays (front ++ [.parent]) ⟨rest, by simp⟩
    rw [← List.append_assoc, normalize_append, List.reverse_eq_iff.mp hfront] at hparent
    cases hroot with
    | relative ups hnames => simp [List.head?_append, List.head?_replicate] at habsolute
    | @absolute above hnames =>
        rcases List.eq_nil_or_concat' above with rfl | ⟨outer, last, rfl⟩
        · exact hne rfl
        · exact absurd hparent.length_le (by simp [pushStep])
  · intro hstays front hfront
    obtain ⟨back, rfl⟩ := hfront
    obtain ⟨final, hwalks⟩ := (not_goesUp_iff hroot.normalize_eq hsteps).mp hstays
    obtain ⟨middle, hmiddle, -⟩ := hwalks.of_append
    rw [hmiddle.normalize_eq hroot.normalize_eq]
    exact List.prefix_append _ _

/-- With nothing above, the step up stays at the front. -/
theorem head?_of_goesUp
    (hroot : normalize root = root)
    (hsteps : .root ∉ steps)
    (h : GoesUp root (root ++ names.map .normal) steps) :
    (normalize (names.map .normal ++ steps)).head? = some .parent := by
  rcases walks_or_climbs hsteps names.reverse with hwalks | ⟨front, rest, rfl, hfront⟩
  · exact absurd h ((not_goesUp_iff hroot hsteps).mpr hwalks)
  · have hnothing : normalize [] = [] := rfl
    obtain ⟨stack, hstack⟩ := foldl_pushStep_climbed rest []
    have hbelow := normalize_below hnothing names (front ++ .parent :: rest)
    rw [List.foldl_append, hfront.foldl] at hbelow
    have hclimbed : (normalize (names.map .normal ++ (front ++ .parent :: rest))) =
        (stack ++ [Component.parent]).reverse := by
      rw [← hstack]
      exact hbelow
    rw [hclimbed, List.reverse_append]
    rfl

end Leaving

end Path
end EsModules
