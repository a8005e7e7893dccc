import EsModules.SourceMap.Mapping
import Mathlib.Algebra.GroupWithZero.Nat
import Mathlib.Tactic.Common

/-!
# Places of a text

The place behind a text is reached step by step.  It is also the number of line feeds of the text
and the width of what follows the last of them (`advance_zero`).  Places are ordered by their line
and then by their column, and every character leads to a later place (`lt_advance`).
-/

namespace EsModules

/-- A line begins behind the text. -/
def Text.LineStart (front : List Char) : Prop :=
  front = [] ∨ front.getLast? = some '\n'

theorem Text.LineStart.of_append
    {front back : List Char}
    (h : LineStart (front ++ back)) :
    LineStart back := by
  cases back with
  | nil => exact .inl rfl
  | cons d back =>
      rcases h with h | h
      · simp at h
      · exact .inr (by simpa [List.getLast?_append] using h)

namespace Place

/-- The place behind a text: the number of its line feeds, and the UTF-16 units behind the last
one. -/
def behind (text : List Char) : Place :=
  ⟨text.count '\n', ((text.reverse.takeWhile (· != '\n')).map units).sum⟩

instance : LT Place :=
  ⟨fun a b => a.line < b.line ∨ a.line = b.line ∧ a.column < b.column⟩

instance : LE Place :=
  ⟨fun a b => a.line < b.line ∨ a.line = b.line ∧ a.column ≤ b.column⟩

variable {a b c : Place}

theorem lt_iff : a < b ↔ a.line < b.line ∨ a.line = b.line ∧ a.column < b.column :=
  Iff.rfl

theorem le_iff : a ≤ b ↔ a.line < b.line ∨ a.line = b.line ∧ a.column ≤ b.column :=
  Iff.rfl

theorem le_refl (a : Place) : a ≤ a :=
  .inr ⟨rfl, Nat.le_refl _⟩

theorem le_of_lt (h : a < b) : a ≤ b := by
  rw [lt_iff] at h
  rw [le_iff]
  omega

theorem lt_of_lt_of_le
    (hab : a < b)
    (hbc : b ≤ c) :
    a < c := by
  rw [lt_iff] at hab ⊢
  rw [le_iff] at hbc
  omega

theorem le_trans
    (hab : a ≤ b)
    (hbc : b ≤ c) :
    a ≤ c := by
  rw [le_iff] at hab hbc ⊢
  omega

theorem units_pos (c : Char) : 0 < units c := by
  unfold units
  split <;> decide

/-- A character leads to a later place. -/
theorem lt_step (p : Place) (c : Char) : p < p.step c := by
  have hpos := units_pos c
  rw [lt_iff]
  by_cases hfeed : c = '\n'
  · simp [step, hfeed]
  · simp [step, hfeed, hpos]

@[simp] theorem advance_nil (p : Place) : p.advance [] = p := rfl

@[simp] theorem advance_cons (p : Place) (c : Char) (text : List Char) :
    p.advance (c :: text) = (p.step c).advance text := rfl

theorem advance_append (p : Place) (front back : List Char) :
    p.advance (front ++ back) = (p.advance front).advance back :=
  List.foldl_append

theorem le_advance (p : Place) (text : List Char) : p ≤ p.advance text := by
  induction text generalizing p with
  | nil => exact le_refl p
  | cons c text ih => exact le_trans (le_of_lt (p.lt_step c)) (ih (p.step c))

theorem lt_advance
    (p : Place)
    {text : List Char}
    (h : text ≠ []) :
    p < p.advance text := by
  cases text with
  | nil => exact absurd rfl h
  | cons c text => exact lt_of_lt_of_le (p.lt_step c) (le_advance _ text)

theorem behind_concat (text : List Char) (c : Char) :
    behind (text ++ [c]) = (behind text).step c := by
  by_cases hfeed : c = '\n'
  · simp [behind, step, hfeed]
  · simp [behind, step, hfeed, List.count_append, Nat.add_comm]

theorem advance_behind (front text : List Char) :
    (behind front).advance text = behind (front ++ text) := by
  induction text generalizing front with
  | nil => simp
  | cons c text ih =>
      rw [advance_cons, ← behind_concat, ih, List.append_assoc, List.singleton_append]

/-- Stepping over a text from its beginning leads to the place behind it. -/
theorem advance_zero (text : List Char) : (⟨0, 0⟩ : Place).advance text = behind text :=
  advance_behind [] text

theorem behind_of_lineStart
    {front : List Char}
    (h : Text.LineStart front) :
    behind front = ⟨front.count '\n', 0⟩ := by
  rcases h with rfl | h
  · rfl
  · obtain ⟨line, rfl⟩ := List.getLast?_eq_some_iff.mp h
    simp [behind]

end Place
end EsModules
