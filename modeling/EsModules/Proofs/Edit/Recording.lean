import EsModules.Proofs.Edit.Conflict
import EsModules.Proofs.Edit.Spliced

/-!
# The order in which edits are recorded

Edits may be recorded in any order, as long as insertions at one place keep theirs.  Edits that
are apart have different spans unless they insert at one place, so sorting leaves no choice
(`sort_eq_of_perm`); and where edits conflict, the order of those with the same span has no
influence on what is reported.
-/

namespace EsModules

open Syntax Text

namespace Edit

variable {edits edits' : List Edit}

/-- Two lists with the same spans in the same order are equal if the edits of each span are. -/
theorem eq_of_map_span_eq
    (hspans : edits.map (·.span) = edits'.map (·.span))
    (hsame : ∀ span, edits.filter (·.span == span) = edits'.filter (·.span == span)) :
    edits = edits' := by
  induction edits generalizing edits' with
  | nil => simpa using hspans
  | cons e rest ih =>
      cases edits' with
      | nil => simp at hspans
      | cons e' rest' =>
          obtain ⟨hspan, hrest⟩ := List.cons_eq_cons.mp hspans
          -- the first edits have the same span and so are the first of those with that span
          have hfirst := hsame e.span
          rw [List.filter_cons_of_pos (by simp), List.filter_cons_of_pos (by simp [hspan])]
            at hfirst
          obtain ⟨rfl, -⟩ := List.cons_eq_cons.mp hfirst
          refine congrArg (e :: ·) (ih hrest fun span => ?_)
          have hspan := hsame span
          by_cases he : e.span = span <;> simpa [he] using hspan

/-- Of edits that are apart, at most one replaces a span. -/
theorem filter_span_eq_of_perm
    {span : Span}
    (hfilled : span.start ≠ span.stop)
    (hspans : ∀ e ∈ edits, e.span.start ≤ e.span.stop)
    (hapart : edits.Pairwise fun a b => a.span.Apart b.span)
    (hperm : edits.Perm edits') :
    edits.filter (·.span == span) = edits'.filter (·.span == span) := by
  have hfiltered := hperm.filter (·.span == span)
  match hlist : edits.filter (·.span == span) with
  | [] =>
      rw [hlist] at hfiltered ⊢
      exact hfiltered.nil_eq
  | [e] =>
      rw [hlist] at hfiltered ⊢
      exact List.singleton_perm.mp hfiltered
  | a :: b :: rest =>
      have hmem : ∀ x ∈ a :: b :: rest, x ∈ edits ∧ x.span = span := by
        intro x hx
        rw [← hlist] at hx
        exact ⟨List.mem_of_mem_filter hx, beq_iff_eq.mp (List.mem_filter.mp hx).2⟩
      have hpair := hapart.sublist (List.filter_sublist (p := (·.span == span)))
      rw [hlist] at hpair
      have hab := (List.pairwise_cons.mp hpair).1 b (by simp)
      obtain ⟨ha, haspan⟩ := hmem a (by simp)
      obtain ⟨-, hbspan⟩ := hmem b (by simp)
      have hle := hspans a ha
      rw [haspan, hbspan] at hab
      rw [haspan] at hle
      rcases hab with hab | hab <;> omega

/-- Sorting gives the same list for edits that are apart, in whatever order they were recorded,
if insertions at one place have the same order. -/
theorem sort_eq_of_perm
    (hspans : ∀ e ∈ edits, e.span.start ≤ e.span.stop)
    (hapart : edits.Pairwise fun a b => a.span.Apart b.span)
    (hperm : edits.Perm edits')
    (hinserts : ∀ p, edits.filter (insertsAt p) = edits'.filter (insertsAt p)) :
    sort edits = sort edits' := by
  have hsort := (perm_sort edits).trans (hperm.trans (perm_sort edits').symm)
  refine eq_of_map_span_eq
    (map_span_eq_of_perm (sorted_sort edits) (sorted_sort edits') hsort) fun span => ?_
  by_cases hspan : span.start = span.stop
  · have hinsertion : (fun e : Edit => e.span == span) = insertsAt span.start := by
      funext e
      rw [Bool.eq_iff_iff, beq_iff_eq, insertsAt_iff]
      obtain ⟨start, stop⟩ := span
      obtain ⟨⟨start', stop'⟩, text, named⟩ := e
      simp only [Span.mk.injEq]
      simp only at hspan
      omega
    rw [hinsertion, filter_insertsAt_sort, filter_insertsAt_sort, hinserts]
  · refine filter_span_eq_of_perm hspan (fun e he => ?_) ?_ hsort
    · exact hspans e ((perm_sort edits).mem_iff.mp he)
    · exact ((perm_sort edits).pairwise_iff fun h => h.symm).mpr hapart

end Edit

open Edit

/-- The pieces of a text, or the conflict, do not depend on the order in which the edits were
recorded, if insertions at one place keep theirs. -/
theorem editPieces_eq_of_perm
    {edits edits' : List Edit}
    (hspans : ∀ e ∈ edits, e.span.start ≤ e.span.stop)
    (hperm : edits.Perm edits')
    (hinserts : ∀ p, edits.filter (insertsAt p) = edits'.filter (insertsAt p))
    (text : String) :
    editPieces text edits = editPieces text edits' := by
  have hsort := (perm_sort edits).trans (hperm.trans (perm_sort edits').symm)
  have hconflict := @firstConflict_eq_of_perm (byteLength text.toList) 0 _ _
    (sorted_sort edits) (sorted_sort edits') hsort
  unfold editPieces
  cases hfound : firstConflict (byteLength text.toList) 0 (Edit.sort edits) with
  | some offset =>
      rw [hfound] at hconflict
      simp only [← hconflict, hfound]
  | none =>
      obtain ⟨-, hapart⟩ := (firstConflict_sort_eq_none_iff hspans).mp hfound
      rw [← sort_eq_of_perm hspans hapart hperm hinserts]

/-- Rendering gives the same code and source map, or the same conflict, in whatever order the
edits were recorded, if insertions at one place keep theirs. -/
theorem Rendered.ofEdits_eq_of_perm
    {edits edits' : List Edit}
    (hspans : ∀ e ∈ edits, e.span.start ≤ e.span.stop)
    (hperm : edits.Perm edits')
    (hinserts : ∀ p, edits.filter (insertsAt p) = edits'.filter (insertsAt p))
    (text header footer source : String)
    (file : Option String) :
    Rendered.ofEdits text edits header footer source file =
      Rendered.ofEdits text edits' header footer source file := by
  unfold Rendered.ofEdits
  rw [editPieces_eq_of_perm hspans hperm hinserts]

/-- Two insertions in front of a replacement, and the same edits with the replacement recorded
first and the insertions around a removal. -/
theorem Rendered.ofEdits_eq_of_perm_twoInserts :
    let edits := [.insert 2 "i", .insert 2 "j", .rename ⟨2, 3⟩ "x", .remove ⟨0, 1⟩]
    let edits' := [.rename ⟨2, 3⟩ "x", .insert 2 "i", .remove ⟨0, 1⟩, .insert 2 "j"]
    (∀ e ∈ edits, e.span.start ≤ e.span.stop) ∧ edits.Perm edits' ∧
      (∀ p, edits.filter (insertsAt p) = edits'.filter (insertsAt p)) ∧
      Rendered.ofEdits "a b\nc" edits "h" "f" "in.js" none =
        Rendered.ofEdits "a b\nc" edits' "h" "f" "in.js" none := by
  intro edits edits'
  have hspans : ∀ e ∈ edits, e.span.start ≤ e.span.stop := by decide
  have hperm : edits.Perm edits' := by decide
  have hinserts : ∀ p, edits.filter (insertsAt p) = edits'.filter (insertsAt p) := by
    intro p
    have hremove : insertsAt p (.remove ⟨0, 1⟩) = false := by
      rw [Bool.eq_false_iff, ne_eq, insertsAt_iff]
      simp only [Edit.remove]
      omega
    have hrename : insertsAt p (.rename ⟨2, 3⟩ "x") = false := by
      rw [Bool.eq_false_iff, ne_eq, insertsAt_iff]
      simp only [Edit.rename]
      omega
    simp only [edits, edits', List.filter_cons, List.filter_nil, hremove, hrename,
      Bool.false_eq_true, if_false]
  exact ⟨hspans, hperm, hinserts,
    Rendered.ofEdits_eq_of_perm hspans hperm hinserts "a b\nc" "h" "f" "in.js" none⟩

end EsModules
