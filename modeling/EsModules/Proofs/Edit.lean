import EsModules.Edit
import Mathlib.Data.List.Sort
import Mathlib.Tactic.Common

/-!
# Edits that do not overlap

Sorting brings edits into the order of the text without losing any.  Going through the sorted
edits finds a conflict exactly if two edits overlap or one reaches behind the end of the text, in
whatever order they were recorded.
-/

namespace EsModules

open Syntax

/-- Neither span reaches into the other; a span without bytes may lie at an end of the other. -/
def Syntax.Span.Apart (a b : Span) : Prop :=
  a.stop ≤ b.start ∨ b.stop ≤ a.start

instance (a b : Span) : Decidable (a.Apart b) :=
  inferInstanceAs (Decidable (_ ∨ _))

theorem Syntax.Span.Apart.symm {a b : Span} (h : a.Apart b) : b.Apart a :=
  Or.symm h

namespace Edit

theorem perm_insertSorted (e : Edit) (edits : List Edit) :
    (insertSorted e edits).Perm (e :: edits) := by
  induction edits with
  | nil => exact .refl _
  | cons other rest ih =>
      unfold insertSorted
      split
      · exact .refl _
      · exact (ih.cons other).trans (.swap e other rest)

theorem perm_sort (edits : List Edit) : (sort edits).Perm edits := by
  induction edits with
  | nil => exact .refl _
  | cons e rest ih => exact (perm_insertSorted e (sort rest)).trans (ih.cons e)

theorem atOrBefore_iff (a b : Edit) :
    a.atOrBefore b = true ↔
      a.span.start < b.span.start ∨ (a.span.start = b.span.start ∧ a.span.stop ≤ b.span.stop) := by
  simp [atOrBefore]

theorem atOrBefore_trans
    {a b c : Edit}
    (hab : a.atOrBefore b = true)
    (hbc : b.atOrBefore c = true) :
    a.atOrBefore c = true := by
  rw [atOrBefore_iff] at *
  omega

theorem atOrBefore_total (a b : Edit) : a.atOrBefore b = true ∨ b.atOrBefore a = true := by
  simp only [atOrBefore_iff]
  omega

/-- The edits stand in the order of their spans. -/
def Sorted (edits : List Edit) : Prop :=
  edits.Pairwise fun a b => a.atOrBefore b = true

instance (edits : List Edit) : Decidable (Sorted edits) :=
  inferInstanceAs (Decidable (edits.Pairwise _))

theorem Sorted.insertSorted
    (e : Edit)
    {edits : List Edit}
    (h : Sorted edits) :
    Sorted (insertSorted e edits) := by
  induction edits with
  | nil => exact List.pairwise_singleton _ _
  | cons other rest ih =>
      obtain ⟨hother, hrest⟩ := List.pairwise_cons.mp h
      unfold Edit.insertSorted
      split
      · rename_i hbefore
        refine List.pairwise_cons.mpr ⟨fun x hx => ?_, h⟩
        rcases List.mem_cons.mp hx with rfl | hx
        · exact hbefore
        · exact atOrBefore_trans hbefore (hother x hx)
      · rename_i hbehind
        refine List.pairwise_cons.mpr ⟨fun x hx => ?_, ih hrest⟩
        rcases List.mem_cons.mp ((perm_insertSorted e rest).mem_iff.mp hx) with rfl | hx
        · exact (atOrBefore_total x other).resolve_left hbehind
        · exact hother x hx

theorem sorted_sort (edits : List Edit) : Sorted (sort edits) := by
  induction edits with
  | nil => exact .nil
  | cons e rest ih => exact ih.insertSorted e

theorem sort_eq_insertionSort (edits : List Edit) :
    sort edits = edits.insertionSort fun a b => a.atOrBefore b = true := by
  have hinsert : ∀ (e : Edit) (sorted : List Edit),
      insertSorted e sorted = sorted.orderedInsert (fun a b => a.atOrBefore b = true) e := by
    intro e sorted
    induction sorted with
    | nil => rfl
    | cons other rest ih => rw [insertSorted, List.orderedInsert_cons, ih]
  induction edits with
  | nil => rfl
  | cons e edits ih => rw [List.insertionSort_cons, ← ih, ← hinsert, sort, List.foldr_cons, sort]

/-- Edits that were recorded in their order stay in it. -/
theorem filter_sort
    {edits : List Edit}
    {p : Edit → Bool}
    (h : Sorted (edits.filter p)) :
    (sort edits).filter p = edits.filter p := by
  have hsublist : (edits.filter p).Sublist (sort edits) := by
    rw [sort_eq_insertionSort]
    exact List.sublist_insertionSort h List.filter_sublist
  have hfiltered := hsublist.filter p
  rw [List.filter_filter] at hfiltered
  simp only [Bool.and_self] at hfiltered
  exact (hfiltered.eq_of_length ((perm_sort edits).filter p).length_eq.symm).symm

/-- No conflict is found if the edits follow one another from `cursor` to the end of the text. -/
theorem firstConflict_eq_none_iff
    {length cursor : Nat}
    {edits : List Edit}
    (hle : ∀ e ∈ edits, e.span.start ≤ e.span.stop) :
    firstConflict length cursor edits = none ↔
      (∀ e ∈ edits, cursor ≤ e.span.start ∧ e.span.stop ≤ length) ∧
        edits.Pairwise fun a b => a.span.stop ≤ b.span.start := by
  induction edits generalizing cursor with
  | nil => simp [firstConflict]
  | cons e rest ih =>
      have he := hle e (by simp)
      have hrest : ∀ e ∈ rest, e.span.start ≤ e.span.stop := fun e he => hle e (by simp [he])
      rw [List.pairwise_cons, List.forall_mem_cons, firstConflict]
      split
      · rename_i hconflict
        simp only [Bool.or_eq_true, decide_eq_true_eq] at hconflict
        constructor
        · intro h
          cases h
        · rintro ⟨⟨hfirst, -⟩, -⟩
          omega
      · rename_i hclear
        simp only [Bool.or_eq_true, decide_eq_true_eq, not_or, Nat.not_lt] at hclear
        rw [ih hrest]
        constructor
        · rintro ⟨hinside, hordered⟩
          refine ⟨⟨hclear, fun x hx => ?_⟩, fun x hx => ?_, hordered⟩
          · have := hinside x hx
            omega
          · have := hinside x hx
            omega
        · rintro ⟨⟨-, hinside⟩, hbehind, hordered⟩
          refine ⟨fun x hx => ?_, hordered⟩
          have hx' := hinside x hx
          have hx'' := hbehind x hx
          omega

/-- Sorted edits that are apart follow one another. -/
theorem Sorted.pairwise_apart_iff
    {edits : List Edit}
    (hsorted : Sorted edits)
    (hle : ∀ e ∈ edits, e.span.start ≤ e.span.stop) :
    edits.Pairwise (fun a b => a.span.Apart b.span) ↔
      edits.Pairwise fun a b => a.span.stop ≤ b.span.start := by
  constructor
  · intro hapart
    refine (hapart.and hsorted).imp_of_mem ?_
    rintro a b ha hb ⟨hab, hbefore⟩
    have hb' := hle b hb
    rw [atOrBefore_iff] at hbefore
    rcases hab with hab | hab <;> omega
  · intro hordered
    exact hordered.imp fun h => Or.inl h

/-- No conflict is found if and only if every edit ends in the text and no two edits overlap. -/
theorem firstConflict_sort_eq_none_iff
    {length : Nat}
    {edits : List Edit}
    (hle : ∀ e ∈ edits, e.span.start ≤ e.span.stop) :
    firstConflict length 0 (sort edits) = none ↔
      (∀ e ∈ edits, e.span.stop ≤ length) ∧
        edits.Pairwise fun a b => a.span.Apart b.span := by
  have hperm := perm_sort edits
  have hle' : ∀ e ∈ sort edits, e.span.start ≤ e.span.stop :=
    fun e he => hle e (hperm.mem_iff.mp he)
  rw [firstConflict_eq_none_iff hle', ← (sorted_sort edits).pairwise_apart_iff hle',
    hperm.pairwise_iff fun h => h.symm]
  refine and_congr_left fun _ => ?_
  constructor
  · intro h e he
    exact (h e (hperm.mem_iff.mpr he)).2
  · intro h e he
    exact ⟨Nat.zero_le _, h e (hperm.mem_iff.mp he)⟩

end Edit

/-- Edits that are apart and inside the text can be applied. -/
theorem editPieces_eq_ok
    {text : String}
    {edits : List Edit}
    (hinside :
      ∀ e ∈ edits, e.span.start ≤ e.span.stop ∧ e.span.stop ≤ Text.byteLength text.toList)
    (hapart : edits.Pairwise fun a b => a.span.Apart b.span) :
    editPieces text edits = .ok (Piece.cut 0 text.toList (Edit.sort edits)) := by
  have hnone := (Edit.firstConflict_sort_eq_none_iff fun e he => (hinside e he).1).mpr
    ⟨fun e he => (hinside e he).2, hapart⟩
  simp only [editPieces, hnone]

end EsModules
