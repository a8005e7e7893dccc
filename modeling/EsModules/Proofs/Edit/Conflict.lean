import EsModules.Proofs.Edit
import EsModules.SourceMap

/-!
# Conflicts between edits

An edit offends if it reaches behind the end of the text or overlaps an edit that comes before it
in the order of starts and ends.  Going through the sorted edits and keeping only the furthest end
finds the first one that offends (`firstConflict_eq_some_iff`).  The order of edits with the same
span has no influence on where that is (`firstConflict_eq_of_perm`).
-/

namespace EsModules

open Syntax Text

namespace Edit

variable {length cursor offset : Nat} {edits edits' earlier : List Edit} {e : Edit}

/-- The edit reaches behind the end of a text or overlaps one of the edits that come before it. -/
def Offends (length : Nat) (earlier : List Edit) (e : Edit) : Prop :=
  length < e.span.stop ∨ ∃ x ∈ earlier, ¬x.span.Apart e.span

instance (length : Nat) (earlier : List Edit) (e : Edit) : Decidable (Offends length earlier e) :=
  inferInstanceAs (Decidable (_ ∨ _))

/-- The edit is the first of a list that offends. -/
def FirstOffender (length : Nat) (edits : List Edit) (e : Edit) : Prop :=
  ∃ before behind, edits = before ++ e :: behind ∧ Offends length before e ∧
    ∀ front x back, before = front ++ x :: back → ¬Offends length front x

/-! ### The furthest end -/

/-- The cursor stands at the furthest end of the edits that come before. -/
def Furthest (cursor : Nat) (earlier : List Edit) : Prop :=
  ∀ place, place < cursor ↔ ∃ x ∈ earlier, place < x.span.stop

theorem furthest_nil : Furthest 0 [] := by
  simp [Furthest]

theorem Furthest.concat
    (h : Furthest cursor earlier)
    (e : Edit) :
    Furthest (max cursor e.span.stop) (earlier ++ [e]) := by
  intro place
  have hmax : place < max cursor e.span.stop ↔ place < cursor ∨ place < e.span.stop := by omega
  rw [hmax, h place]
  simp [or_and_right, exists_or]

/-- An edit overlaps one that comes before it in the order of starts and ends if that one ends
behind its start.  An insertion at the start of a replacement comes before it. -/
theorem not_apart_iff_of_atOrBefore
    {x : Edit}
    (hspan : e.span.start ≤ e.span.stop)
    (hbefore : x.atOrBefore e = true) :
    ¬x.span.Apart e.span ↔ e.span.start < x.span.stop := by
  rw [atOrBefore_iff] at hbefore
  unfold Span.Apart
  omega

/-- Comparing with the furthest end tells whether an edit offends. -/
theorem offends_iff
    (hfurthest : Furthest cursor earlier)
    (hspan : e.span.start ≤ e.span.stop)
    (hbefore : ∀ x ∈ earlier, x.atOrBefore e = true) :
    Offends length earlier e ↔ e.span.start < cursor ∨ length < e.span.stop := by
  have hoverlap : (∃ x ∈ earlier, ¬x.span.Apart e.span) ↔ e.span.start < cursor := by
    rw [hfurthest]
    refine exists_congr fun x => and_congr_right fun hx => ?_
    exact not_apart_iff_of_atOrBefore hspan (hbefore x hx)
  rw [Offends, hoverlap, or_comm]

/-- The conflict that is found is the start of the first edit that offends, where `earlier` come
before the edits of the list. -/
theorem firstConflict_eq_some_iff
    (hfurthest : Furthest cursor earlier)
    (hspans : ∀ e ∈ edits, e.span.start ≤ e.span.stop)
    (hsorted : Sorted (earlier ++ edits)) :
    firstConflict length cursor edits = some offset ↔
      ∃ before e behind, edits = before ++ e :: behind ∧ Offends length (earlier ++ before) e ∧
        (∀ front x back, before = front ++ x :: back → ¬Offends length (earlier ++ front) x) ∧
        e.span.start = offset := by
  induction edits generalizing cursor earlier with
  | nil => simp [firstConflict]
  | cons d rest ih =>
      have hbefore : ∀ x ∈ earlier, x.atOrBefore d = true :=
        fun x hx => (List.pairwise_append.mp hsorted).2.2 x hx d List.mem_cons_self
      have hd : (decide (d.span.start < cursor) || decide (length < d.span.stop)) = true ↔
          Offends length earlier d := by
        rw [offends_iff hfurthest (hspans d List.mem_cons_self) hbefore, Bool.or_eq_true,
          decide_eq_true_iff, decide_eq_true_iff]
      rw [firstConflict]
      by_cases hoffends : Offends length earlier d
      · rw [if_pos (hd.mpr hoffends)]
        constructor
        · intro hsome
          exact ⟨[], d, rest, rfl, by simpa using hoffends, by simp, Option.some.inj hsome⟩
        · rintro ⟨before, e, behind, hedits, -, hnone, rfl⟩
          rcases List.cons_eq_append_iff.mp hedits with ⟨rfl, he⟩ | ⟨before', rfl, -⟩
          · rw [(List.cons_eq_cons.mp he).1]
          · exact absurd (by simpa using hoffends) (hnone [] d before' rfl)
      · rw [if_neg (mt hd.mp hoffends)]
        have hsorted' : Sorted ((earlier ++ [d]) ++ rest) := by simpa using hsorted
        rw [ih (hfurthest.concat d) (fun e he => hspans e (List.mem_cons_of_mem d he)) hsorted']
        simp only [List.append_assoc, List.singleton_append]
        constructor
        · rintro ⟨before, e, behind, rfl, he, hnone, hstart⟩
          refine ⟨d :: before, e, behind, rfl, he, ?_, hstart⟩
          intro front x back hfront
          rcases List.cons_eq_append_iff.mp hfront with ⟨rfl, hx⟩ | ⟨front', rfl, hfront'⟩
          · rw [(List.cons_eq_cons.mp hx).1, List.append_nil]
            exact hoffends
          · exact hnone front' x back hfront'
        · rintro ⟨before, e, behind, hedits, he, hnone, hstart⟩
          rcases List.cons_eq_append_iff.mp hedits with ⟨rfl, hsame⟩ | ⟨before', rfl, hrest⟩
          · rw [(List.cons_eq_cons.mp hsame).1, List.append_nil] at he
            exact absurd he hoffends
          · refine ⟨before', e, behind, hrest, he, ?_, hstart⟩
            intro front x back hfront
            exact hnone (d :: front) x back (by rw [hfront, List.cons_append])

/-! ### Edits with the same span -/

/-- Only the spans of edits matter for the conflict. -/
theorem firstConflict_congr
    (h : edits.map (·.span) = edits'.map (·.span)) :
    firstConflict length cursor edits = firstConflict length cursor edits' := by
  induction edits generalizing cursor edits' with
  | nil =>
      obtain rfl : edits' = [] := by simpa using h.symm
      rfl
  | cons d rest ih =>
      cases edits' with
      | nil => simp at h
      | cons d' rest' =>
          obtain ⟨hspan, hrest⟩ := List.cons_eq_cons.mp h
          simp only [firstConflict, hspan, ih hrest]

/-- Two listings of the same edits in order have the same spans. -/
theorem map_span_eq_of_perm
    (hsorted : Sorted edits)
    (hsorted' : Sorted edits')
    (hperm : edits.Perm edits') :
    edits.map (·.span) = edits'.map (·.span) := by
  let before (a b : Span) : Prop := a.start < b.start ∨ (a.start = b.start ∧ a.stop ≤ b.stop)
  have hspans : ∀ {list : List Edit}, Sorted list → (list.map (·.span)).Pairwise before :=
    fun h => List.pairwise_map.mpr (h.imp fun {a b} hab => (atOrBefore_iff a b).mp hab)
  refine List.Perm.eq_of_pairwise ?_ (hspans hsorted) (hspans hsorted') (hperm.map _)
  rintro ⟨start, stop⟩ ⟨start', stop'⟩ - - hab hba
  simp only [before] at hab hba
  obtain ⟨rfl, rfl⟩ : start = start' ∧ stop = stop' := by omega
  rfl

/-- The conflict is the same in all listings of the edits in order. -/
theorem firstConflict_eq_of_perm
    (hsorted : Sorted edits)
    (hsorted' : Sorted edits')
    (hperm : edits.Perm edits') :
    firstConflict length cursor edits = firstConflict length cursor edits' :=
  firstConflict_congr (map_span_eq_of_perm hsorted hsorted' hperm)

/-- The conflict is found at the first edit that offends, in every listing of the edits in
order. -/
theorem firstConflict_sort_eq_some_iff
    {sorted : List Edit}
    (hspans : ∀ e ∈ edits, e.span.start ≤ e.span.stop)
    (hperm : sorted.Perm edits)
    (hsorted : Sorted sorted) :
    firstConflict length 0 (sort edits) = some offset ↔
      ∃ e, FirstOffender length sorted e ∧ e.span.start = offset := by
  have hspans' : ∀ e ∈ sorted, e.span.start ≤ e.span.stop :=
    fun e he => hspans e (hperm.mem_iff.mp he)
  rw [firstConflict_eq_of_perm (sorted_sort edits) hsorted ((perm_sort edits).trans hperm.symm),
    firstConflict_eq_some_iff furthest_nil hspans' hsorted]
  simp only [List.nil_append, FirstOffender]
  constructor
  · rintro ⟨before, e, behind, hedits, hoffends, hnone, hstart⟩
    exact ⟨e, ⟨before, behind, hedits, hoffends, hnone⟩, hstart⟩
  · rintro ⟨e, ⟨before, behind, hedits, hoffends, hnone⟩, hstart⟩
    exact ⟨before, e, behind, hedits, hoffends, hnone, hstart⟩

/-- A conflict is found if and only if an edit reaches behind the end or two edits overlap. -/
theorem exists_firstConflict_iff
    (hspans : ∀ e ∈ edits, e.span.start ≤ e.span.stop) :
    (∃ offset, firstConflict length 0 (sort edits) = some offset) ↔
      (∃ e ∈ edits, length < e.span.stop) ∨
        ∃ i j : Fin edits.length, i ≠ j ∧ ¬(edits.get i).span.Apart (edits.get j).span := by
  have hnone := @firstConflict_sort_eq_none_iff length edits hspans
  rw [List.pairwise_iff_get] at hnone
  rw [← Option.ne_none_iff_exists', ne_eq, hnone]
  constructor
  · intro hconflict
    by_contra hclear
    simp only [not_or, not_exists, not_and, not_not, Nat.not_lt] at hclear
    exact hconflict ⟨hclear.1, fun i j hij => hclear.2 i j hij.ne⟩
  · rintro (⟨e, he, hstop⟩ | ⟨i, j, hij, hoverlap⟩) ⟨hinside, hapart⟩
    · exact absurd (hinside e he) (Nat.not_le.mpr hstop)
    · rcases Nat.lt_or_gt_of_ne (Fin.val_ne_of_ne hij) with hlt | hlt
      · exact hoverlap (hapart i j hlt)
      · exact hoverlap (hapart j i hlt).symm

end Edit

open Edit

/-- Rendering fails where a conflict is found, and there only. -/
theorem Rendered.ofEdits_eq_error_iff
    (text : String)
    (edits : List Edit)
    (header footer source : String)
    (file : Option String)
    (offset : Nat) :
    Rendered.ofEdits text edits header footer source file = .error (.conflictingEdit offset) ↔
      firstConflict (byteLength text.toList) 0 (Edit.sort edits) = some offset := by
  unfold Rendered.ofEdits editPieces
  cases hconflict : firstConflict (byteLength text.toList) 0 (Edit.sort edits) with
  | none =>
      simp only [hconflict, bind, Except.bind]
      split <;> simp [pure, Except.pure, throw, throwThe, MonadExceptOf.throw]
  | some found => simp [hconflict, bind, Except.bind]

/-- Rendering reports a conflict if and only if some edit reaches behind the end of the text or
some two edits overlap, and what it reports is the start of the first edit, by start and end, that
reaches behind the end or overlaps an earlier one. -/
theorem Rendered.ofEdits_conflict_iff
    (text : String)
    (edits : List Edit)
    (hspans : ∀ e ∈ edits, e.span.start ≤ e.span.stop)
    (header footer source : String)
    (file : Option String) :
    ((∃ offset, Rendered.ofEdits text edits header footer source file =
        .error (.conflictingEdit offset)) ↔
      (∃ e ∈ edits, byteLength text.toList < e.span.stop) ∨
        ∃ i j : Fin edits.length, i ≠ j ∧ ¬(edits.get i).span.Apart (edits.get j).span) ∧
    ∀ sorted : List Edit, sorted.Perm edits → Sorted sorted → ∀ offset,
      (Rendered.ofEdits text edits header footer source file =
          .error (.conflictingEdit offset) ↔
        ∃ e, FirstOffender (byteLength text.toList) sorted e ∧ e.span.start = offset) := by
  simp only [Rendered.ofEdits_eq_error_iff]
  refine ⟨exists_firstConflict_iff hspans, ?_⟩
  intro sorted hperm hsorted offset
  exact firstConflict_sort_eq_some_iff hspans hperm hsorted

/-- An edit that overlaps the one before it, recorded twice and in front of it, among insertions
at the ends of both. -/
theorem Rendered.ofEdits_conflict_iff_crossing :
    let edits := [.remove ⟨3, 5⟩, .insert 5 "k", .insert 2 "i", .remove ⟨3, 5⟩,
      .replace ⟨2, 4⟩ "x"]
    (∀ e ∈ edits, e.span.start ≤ e.span.stop) ∧
      Rendered.ofEdits "abcdef" edits "" "" "in.js" none = .error (.conflictingEdit 3) := by
  intro edits
  have hspans : ∀ e ∈ edits, e.span.start ≤ e.span.stop := by decide
  have hfirst := (Rendered.ofEdits_conflict_iff "abcdef" edits hspans "" "" "in.js" none).2
    [.insert 2 "i", .replace ⟨2, 4⟩ "x", .remove ⟨3, 5⟩, .remove ⟨3, 5⟩, .insert 5 "k"]
    (by decide) (by decide) 3
  refine ⟨hspans, hfirst.mpr ⟨.remove ⟨3, 5⟩, ?_, rfl⟩⟩
  refine ⟨[.insert 2 "i", .replace ⟨2, 4⟩ "x"], [.remove ⟨3, 5⟩, .insert 5 "k"], rfl, by decide, ?_⟩
  intro front x back hfront
  rcases List.cons_eq_append_iff.mp hfront with ⟨rfl, hx⟩ | ⟨front', rfl, hfront'⟩
  · obtain ⟨rfl, -⟩ := List.cons_eq_cons.mp hx
    decide
  · rcases List.cons_eq_append_iff.mp hfront' with ⟨rfl, hx⟩ | ⟨front'', rfl, hfront''⟩
    · obtain ⟨rfl, -⟩ := List.cons_eq_cons.mp hx
      decide
    · simp at hfront''

end EsModules
