import EsModules.Proofs.Edit
import EsModules.Proofs.Syntax.Cursor

/-!
# The text behind edits

What edits make of a text, said character by character: at each byte stand the texts that are
inserted there, in the order in which they were recorded, and then the replacement that begins
there, or the character itself where no edit covers it.  Neither sorting nor cutting is involved.

The pieces that a text is cut into give the same text (`output_cut`), in whatever order the edits
were recorded (`spliced_sort`).
-/

namespace EsModules

open Syntax Text

namespace Piece

theorem splitBytes_append (front back : List Char) (n : Nat) :
    splitBytes (byteLength front + n) (front ++ back) =
      (front ++ (splitBytes n back).1, (splitBytes n back).2) := by
  induction front with
  | nil => simp
  | cons d front ih =>
      have hpos := d.utf8Size_pos
      obtain ⟨k, hk⟩ := Nat.exists_eq_add_of_lt hpos
      have hsum : byteLength (d :: front) + n = k + byteLength front + n + 1 := by
        rw [byteLength_cons]
        omega
      have hrest : k + byteLength front + n + 1 - d.utf8Size = byteLength front + n := by omega
      rw [hsum, List.cons_append, splitBytes, hrest, ih]
      rfl

theorem splitBytes_byteLength (front back : List Char) :
    splitBytes (byteLength front) (front ++ back) = (front, back) := by
  have h := splitBytes_append front back 0
  simpa [splitBytes] using h

end Piece

namespace Edit

variable {edits : List Edit} {e : Edit} {p q : Nat}

/-- The edit inserts at the byte `p`. -/
def insertsAt (p : Nat) (e : Edit) : Bool :=
  e.span.start == p && e.span.stop == p

/-- The edit replaces the byte `p`. -/
def covers (p : Nat) (e : Edit) : Bool :=
  e.span.start ≤ p && p < e.span.stop

/-- The edit replaces bytes from `p` on. -/
def replacesFrom (p : Nat) (e : Edit) : Bool :=
  e.span.start == p && p < e.span.stop

/-- The texts that are inserted at the byte `p`, in the order in which they were recorded. -/
def insertion (edits : List Edit) (p : Nat) : List Char :=
  (edits.filter (insertsAt p)).flatMap (·.text.toList)

/-- What stands in the place of the character `c` at the byte `p`: the replacement that begins
there, nothing if a replacement has begun before, or the character itself. -/
def inPlace (edits : List Edit) (p : Nat) (c : Char) : List Char :=
  if edits.any (covers p) then (edits.filter (replacesFrom p)).flatMap (·.text.toList) else [c]

/-- The text behind the edits, for a text that begins at the byte `p`. -/
def spliced (edits : List Edit) : Nat → List Char → List Char
  | p, [] => insertion edits p
  | p, c :: cs => insertion edits p ++ inPlace edits p c ++ spliced edits (p + c.utf8Size) cs

/-! ### Single characters -/

theorem insertsAt_iff : insertsAt p e = true ↔ e.span.start = p ∧ e.span.stop = p := by
  simp [insertsAt]

theorem covers_iff : covers p e = true ↔ e.span.start ≤ p ∧ p < e.span.stop := by
  simp [covers]

theorem replacesFrom_iff : replacesFrom p e = true ↔ e.span.start = p ∧ p < e.span.stop := by
  simp [replacesFrom]

theorem insertion_cons_of_inserts
    (h : insertsAt p e = true) :
    insertion (e :: edits) p = e.text.toList ++ insertion edits p := by
  simp [insertion, h]

theorem insertion_cons_of_not
    (h : ¬insertsAt p e = true) :
    insertion (e :: edits) p = insertion edits p := by
  simp [insertion, h]

theorem insertion_eq_nil
    (h : ∀ x ∈ edits, ¬insertsAt p x = true) :
    insertion edits p = [] := by
  rw [insertion, List.filter_eq_nil_iff.mpr h, List.flatMap_nil]

theorem inPlace_cons_of_not
    (h : ¬covers p e = true)
    (c : Char) :
    inPlace (e :: edits) p c = inPlace edits p c := by
  have hnot : ¬replacesFrom p e = true := by
    rw [replacesFrom_iff]
    rw [covers_iff] at h
    omega
  simp [inPlace, h, hnot]

theorem inPlace_of_uncovered
    (h : edits.any (covers p) = false)
    (c : Char) :
    inPlace edits p c = [c] := by
  simp [inPlace, h]

theorem inPlace_of_covered
    (h : edits.any (covers p) = true)
    (c : Char) :
    inPlace edits p c = (edits.filter (replacesFrom p)).flatMap (·.text.toList) := by
  simp [inPlace, h]

/-- The text before a character does not depend on what comes behind it. -/
theorem spliced_append_cons
    (edits : List Edit)
    (p : Nat)
    (front : List Char)
    (c : Char)
    (back : List Char) :
    spliced edits p (front ++ c :: back) =
      spliced edits p front ++ inPlace edits (p + byteLength front) c ++
        spliced edits (p + byteLength front + c.utf8Size) back := by
  induction front generalizing p with
  | nil => simp [spliced]
  | cons d front ih =>
      rw [List.cons_append, spliced, ih, spliced, byteLength_cons, ← Nat.add_assoc]
      simp only [List.append_assoc]

/-! ### One edit after the other -/

/-- The edits come at or behind a byte. -/
def Behind (p : Nat) (edits : List Edit) : Prop :=
  ∀ x ∈ edits, p ≤ x.span.start ∧ x.span.start ≤ x.span.stop

theorem Behind.cons
    (hp : p ≤ e.span.start)
    (hspan : e.span.start ≤ e.span.stop)
    (h : Behind e.span.stop edits) :
    Behind p (e :: edits) := by
  intro x hx
  rcases List.mem_cons.mp hx with rfl | hx
  · exact ⟨hp, hspan⟩
  · have := h x hx
    omega

theorem Behind.insertion_eq_nil
    (h : Behind q edits)
    (hpq : p < q) :
    insertion edits p = [] := by
  apply Edit.insertion_eq_nil
  intro x hx
  have := h x hx
  rw [insertsAt_iff]
  omega

theorem Behind.uncovered
    (h : Behind q edits)
    (hpq : p < q) :
    edits.any (covers p) = false := by
  rw [List.any_eq_false]
  intro x hx
  have := h x hx
  rw [covers_iff]
  omega

/-- The text before all edits is kept. -/
theorem spliced_kept
    (before more : List Char)
    (h : Behind (p + byteLength before) edits) :
    spliced edits p (before ++ more) = before ++ spliced edits (p + byteLength before) more := by
  induction before generalizing p with
  | nil => simp
  | cons c before ih =>
      have hlt : p < p + byteLength (c :: before) := by
        have := c.utf8Size_pos
        rw [byteLength_cons]
        omega
      rw [byteLength_cons, ← Nat.add_assoc] at h ⊢
      rw [byteLength_cons, ← Nat.add_assoc] at hlt
      rw [List.cons_append, spliced, h.insertion_eq_nil hlt,
        inPlace_of_uncovered (h.uncovered hlt), ih h]
      simp

/-- An edit has no effect behind its end. -/
theorem spliced_behind
    (hstart : e.span.start < p)
    (hstop : e.span.stop ≤ p)
    (more : List Char) :
    spliced (e :: edits) p more = spliced edits p more := by
  induction more generalizing p with
  | nil =>
      have hnot : ¬insertsAt p e = true := by
        rw [insertsAt_iff]
        omega
      rw [spliced, spliced, insertion_cons_of_not hnot]
  | cons c more ih =>
      have hnot : ¬insertsAt p e = true := by
        rw [insertsAt_iff]
        omega
      have hnot' : ¬covers p e = true := by
        rw [covers_iff]
        omega
      rw [spliced, spliced, insertion_cons_of_not hnot, inPlace_cons_of_not hnot',
        ih (by omega) (by omega)]

/-- An insertion comes before everything else at its place. -/
theorem spliced_insertion
    (hstart : e.span.start = p)
    (hstop : e.span.stop = p)
    (more : List Char) :
    spliced (e :: edits) p more = e.text.toList ++ spliced edits p more := by
  have hinserts : insertsAt p e = true := insertsAt_iff.mpr ⟨hstart, hstop⟩
  cases more with
  | nil => rw [spliced, spliced, insertion_cons_of_inserts hinserts]
  | cons c more =>
      have hpos := c.utf8Size_pos
      have hnot : ¬covers p e = true := by
        rw [covers_iff]
        omega
      rw [spliced, spliced, insertion_cons_of_inserts hinserts, inPlace_cons_of_not hnot,
        spliced_behind (by omega) (by omega)]
      simp

/-- The characters that a replacement covers are left out. -/
theorem spliced_covered
    (source more : List Char)
    (hstart : e.span.start < p)
    (hstop : e.span.stop = p + byteLength source)
    (h : Behind e.span.stop edits) :
    spliced (e :: edits) p (source ++ more) = spliced edits e.span.stop more := by
  induction source generalizing p with
  | nil =>
      have hp : e.span.stop = p := hstop
      rw [List.nil_append, hp, spliced_behind hstart (Nat.le_of_eq hp)]
  | cons c source ih =>
      have hpos := c.utf8Size_pos
      rw [byteLength_cons] at hstop
      have hnot : ∀ x ∈ e :: edits, ¬insertsAt p x = true := by
        intro x hx
        rw [insertsAt_iff]
        rcases List.mem_cons.mp hx with rfl | hx
        · omega
        · have := h x hx
          omega
      have hnone : ∀ x ∈ e :: edits, ¬replacesFrom p x = true := by
        intro x hx
        rw [replacesFrom_iff]
        rcases List.mem_cons.mp hx with rfl | hx
        · omega
        · have := h x hx
          omega
      have hcovers : covers p e = true := covers_iff.mpr (by omega)
      have hcovered : (e :: edits).any (covers p) = true := by simp [hcovers]
      rw [List.cons_append, spliced, insertion_eq_nil hnot, inPlace_of_covered hcovered,
        List.filter_eq_nil_iff.mpr hnone, ih (by omega) (by omega)]
      simp

/-- A replacement takes the place of the characters that it covers. -/
theorem spliced_replacement
    (c : Char)
    (source more : List Char)
    (hstart : e.span.start = p)
    (hstop : e.span.stop = p + byteLength (c :: source))
    (h : Behind e.span.stop edits) :
    spliced (e :: edits) p (c :: source ++ more) =
      e.text.toList ++ spliced edits e.span.stop more := by
  have hpos := c.utf8Size_pos
  rw [byteLength_cons] at hstop
  have hbehind : ∀ x ∈ edits, ¬replacesFrom p x = true := by
    intro x hx
    have := h x hx
    rw [replacesFrom_iff]
    omega
  have hnot : ¬insertsAt p e = true := by
    rw [insertsAt_iff]
    omega
  have hcovers : covers p e = true := covers_iff.mpr (by omega)
  have hcovered : (e :: edits).any (covers p) = true := by simp [hcovers]
  have hfrom : replacesFrom p e = true := replacesFrom_iff.mpr (by omega)
  have hnil : insertion (e :: edits) p = [] := by
    rw [insertion_cons_of_not hnot, h.insertion_eq_nil (by omega)]
  have hplace : inPlace (e :: edits) p c = e.text.toList := by
    rw [inPlace_of_covered hcovered, List.filter_cons_of_pos hfrom,
      List.filter_eq_nil_iff.mpr hbehind, List.flatMap_singleton]
  rw [List.cons_append, spliced, hnil, hplace, spliced_covered source more (by omega) (by omega) h,
    List.nil_append]

/-- The first edit takes the place of its span. -/
theorem spliced_cons
    (before source more : List Char)
    (hstart : e.span.start = p + byteLength before)
    (hstop : e.span.stop = e.span.start + byteLength source)
    (h : Behind e.span.stop edits) :
    spliced (e :: edits) p (before ++ (source ++ more)) =
      before ++ (e.text.toList ++ spliced edits e.span.stop more) := by
  have hall : Behind (p + byteLength before) (e :: edits) := h.cons (by omega) (by omega)
  rw [spliced_kept before _ hall, ← hstart]
  congr 1
  cases source with
  | nil =>
      have hsame : e.span.stop = e.span.start := hstop
      rw [List.nil_append, spliced_insertion rfl hsame, hsame]
  | cons c source => exact spliced_replacement c source more rfl hstop h

/-- An insertion of nothing has no effect. -/
theorem spliced_nothing
    (hspan : e.span.stop = e.span.start)
    (htext : e.text = "")
    (more : List Char) :
    spliced (e :: edits) p more = spliced edits p more := by
  have hinsertion : ∀ q, insertion (e :: edits) q = insertion edits q := by
    intro q
    by_cases hinserts : insertsAt q e = true
    · rw [insertion_cons_of_inserts hinserts, htext]
      rfl
    · exact insertion_cons_of_not hinserts
  have hnot : ∀ q, ¬covers q e = true := by
    intro q
    rw [covers_iff]
    omega
  induction more generalizing p with
  | nil => rw [spliced, spliced, hinsertion]
  | cons c more ih => rw [spliced, spliced, hinsertion, inPlace_cons_of_not (hnot p), ih]

/-! ### Pieces -/

/-- How edits that follow one another cut a text that begins at the byte `p`. -/
inductive Cuts : Nat → List Char → List Edit → List Piece → Prop where
  | done (p : Nat) (rest : List Char) : Cuts p rest [] [.kept rest]
  /-- Nothing is inserted, which leaves no trace. -/
  | skip
      {p : Nat}
      {rest : List Char}
      {e : Edit}
      {edits : List Edit}
      {pieces : List Piece}
      (hspan : e.span.stop = e.span.start)
      (htext : e.text = "")
      (h : Cuts p rest edits pieces) :
      Cuts p rest (e :: edits) pieces
  | insert
      {p : Nat}
      {before behind : List Char}
      {e : Edit}
      {edits : List Edit}
      {pieces : List Piece}
      (hstart : e.span.start = p + byteLength before)
      (hstop : e.span.stop = e.span.start)
      (hbehind : Behind e.span.stop edits)
      (h : Cuts e.span.stop behind edits pieces) :
      Cuts p (before ++ behind) (e :: edits)
        (.kept before :: .inserted e.text.toList :: pieces)
  | replace
      {p : Nat}
      {before source behind : List Char}
      {e : Edit}
      {edits : List Edit}
      {pieces : List Piece}
      (hstart : e.span.start = p + byteLength before)
      (hstop : e.span.stop = e.span.start + byteLength source)
      (hsource : source ≠ [])
      (hbehind : Behind e.span.stop edits)
      (h : Cuts e.span.stop behind edits pieces) :
      Cuts p (before ++ (source ++ behind)) (e :: edits)
        (.kept before :: .replaced source e.text.toList e.named :: pieces)

/-- The pieces put together are the text behind the edits. -/
theorem Cuts.output
    {rest : List Char}
    {pieces : List Piece}
    (h : Cuts p rest edits pieces) :
    pieces.flatMap Piece.output = spliced edits p rest := by
  induction h with
  | done p rest =>
      have hnone : Behind (p + byteLength rest) [] := by simp [Behind]
      have hkept := spliced_kept rest [] hnone
      rw [List.append_nil] at hkept
      rw [hkept]
      simp [Piece.output, spliced, insertion]
  | skip hspan htext _ ih => rw [ih, spliced_nothing hspan htext]
  | @insert p before behind e edits pieces hstart hstop hbehind _ ih =>
      have hsplice := spliced_cons before [] behind hstart hstop hbehind
      rw [List.nil_append] at hsplice
      rw [hsplice, ← ih]
      simp [Piece.output]
  | replace hstart hstop hsource hbehind _ ih =>
      rw [spliced_cons _ _ _ hstart hstop hbehind, ← ih]
      simp [Piece.output]

/-- Edits between characters that follow one another cut the text. -/
theorem cuts_cut
    {text front rest : List Char}
    (htext : text = front ++ rest)
    (hfront : byteLength front = p)
    (hbehind : Behind p edits)
    (hwhole : ∀ e ∈ edits, Boundary text e.span.start ∧ Boundary text e.span.stop)
    (hordered : edits.Pairwise fun a b => a.span.stop ≤ b.span.start) :
    Cuts p rest edits (Piece.cut p rest edits) := by
  induction edits generalizing p front rest with
  | nil => exact .done p rest
  | cons e edits ih =>
      obtain ⟨hnext, hordered⟩ := List.pairwise_cons.mp hordered
      obtain ⟨hp, hspan⟩ := hbehind e (by simp)
      obtain ⟨⟨front', rest', htext', hstart⟩, front'', behind, htext'', hstop⟩ :=
        hwhole e (by simp)
      have hlater : ∀ x ∈ edits, Boundary text x.span.start ∧ Boundary text x.span.stop :=
        fun x hx => hwhole x (by simp [hx])
      have hbehind' : Behind e.span.stop edits :=
        fun x hx => ⟨hnext x hx, (hbehind x (by simp [hx])).2⟩
      -- the places of the edit lie in the text in this order
      obtain ⟨before, rfl, rfl⟩ :=
        append_eq_append_of_le (htext.symm.trans htext') (by omega)
      obtain ⟨source, rfl, rfl⟩ :=
        append_eq_append_of_le (htext'.symm.trans htext'') (by omega)
      have hrest := ih htext'' hstop hbehind' hlater hordered
      have hbefore : e.span.start = p + byteLength before := by
        rw [← hstart, byteLength_append, hfront]
      have hsource : e.span.stop = e.span.start + byteLength source := by
        rw [← hstop, ← hstart, byteLength_append (front ++ before)]
      have hsplit : Piece.splitBytes (e.span.start - p) (before ++ (source ++ behind)) =
          (before, source ++ behind) := by
        rw [hbefore, Nat.add_sub_cancel_left, Piece.splitBytes_byteLength]
      by_cases hinsertion : e.isInsertion = true
      · have hsame : e.span.stop = e.span.start := (beq_iff_eq.mp hinsertion).symm
        obtain rfl : source = [] := byteLength_eq_zero.mp (by omega)
        by_cases hnothing : e.text = ""
        · rw [Piece.cut, if_pos (by simp [hinsertion, hnothing])]
          exact .skip hsame hnothing
            (ih htext hfront (fun x hx => hbehind x (by simp [hx])) hlater hordered)
        · rw [Piece.cut, if_neg (by simp [hnothing]), hsplit]
          simp only [hinsertion, if_true, List.nil_append, ← hsame]
          exact .insert hbefore hsame hbehind' hrest
      · have hsplit' : Piece.splitBytes (e.span.stop - e.span.start) (source ++ behind) =
            (source, behind) := by
          rw [hsource, Nat.add_sub_cancel_left, Piece.splitBytes_byteLength]
        have hfilled : source ≠ [] := by
          rintro rfl
          exact hinsertion (beq_iff_eq.mpr hsource.symm)
        rw [Piece.cut, if_neg (by simp [hinsertion]), hsplit]
        simp only [hinsertion, Bool.false_eq_true, if_false, hsplit']
        exact .replace hbefore hsource hfilled hbehind' hrest

/-! ### Edits in any order -/

/-- Each edit replaces whole characters of the text, and no two edits overlap. -/
structure Applicable (text : List Char) (edits : List Edit) : Prop where
  start_le : ∀ e ∈ edits, e.span.start ≤ e.span.stop
  whole : ∀ e ∈ edits, Boundary text e.span.start ∧ Boundary text e.span.stop
  apart : edits.Pairwise fun a b => a.span.Apart b.span

/-- Insertions at one place keep the order in which they were recorded. -/
theorem filter_insertsAt_sort (edits : List Edit) (p : Nat) :
    (sort edits).filter (insertsAt p) = edits.filter (insertsAt p) := by
  have hsorted : Sorted (edits.filter (insertsAt p)) := by
    refine List.pairwise_of_forall_mem_list ?_
    intro a ha b hb
    have := insertsAt_iff.mp (List.mem_filter.mp ha).2
    have := insertsAt_iff.mp (List.mem_filter.mp hb).2
    rw [atOrBefore_iff]
    omega
  exact filter_sort hsorted

theorem insertion_sort (edits : List Edit) (p : Nat) :
    insertion (sort edits) p = insertion edits p := by
  rw [insertion, insertion, filter_insertsAt_sort]

namespace Applicable

variable {text : List Char}

/-- At most one edit replaces the characters from a byte on. -/
theorem filter_replacesFrom
    (h : Applicable text edits)
    (he : e ∈ edits)
    (hfrom : replacesFrom p e = true) :
    edits.filter (replacesFrom p) = [e] := by
  have hmem : e ∈ edits.filter (replacesFrom p) := List.mem_filter.mpr ⟨he, hfrom⟩
  have hapart : (edits.filter (replacesFrom p)).Pairwise fun a b => a.span.Apart b.span :=
    h.apart.sublist List.filter_sublist
  have hall : ∀ x ∈ edits.filter (replacesFrom p), x.span.start = p ∧ p < x.span.stop :=
    fun x hx => replacesFrom_iff.mp (List.mem_filter.mp hx).2
  match hlist : edits.filter (replacesFrom p) with
  | [] =>
      rw [hlist] at hmem
      cases hmem
  | [x] =>
      rw [hlist] at hmem
      rw [List.mem_singleton.mp hmem]
  | x :: y :: rest =>
      rw [hlist] at hapart hall
      have hxy : x.span.Apart y.span := (List.pairwise_cons.mp hapart).1 y (by simp)
      have hx := hall x (by simp)
      have hy := hall y (by simp)
      rcases hxy with hxy | hxy <;> omega

theorem sort (h : Applicable text edits) : Applicable text (sort edits) where
  start_le := fun e he => h.start_le e ((perm_sort edits).mem_iff.mp he)
  whole := fun e he => h.whole e ((perm_sort edits).mem_iff.mp he)
  apart := ((perm_sort edits).pairwise_iff fun h => h.symm).mpr h.apart

theorem filter_replacesFrom_sort
    (h : Applicable text edits)
    (p : Nat) :
    (Edit.sort edits).filter (replacesFrom p) = edits.filter (replacesFrom p) := by
  have hperm := (perm_sort edits).filter (replacesFrom p)
  by_cases hsome : ∃ e ∈ edits, replacesFrom p e = true
  · obtain ⟨e, he, hfrom⟩ := hsome
    rw [h.filter_replacesFrom he hfrom] at hperm ⊢
    exact List.perm_singleton.mp hperm
  · have hnone : ∀ e ∈ edits, ¬replacesFrom p e = true :=
      fun e he hfrom => hsome ⟨e, he, hfrom⟩
    rw [List.filter_eq_nil_iff.mpr hnone] at hperm ⊢
    exact hperm.eq_nil

theorem inPlace_sort
    (h : Applicable text edits)
    (p : Nat)
    (c : Char) :
    inPlace (Edit.sort edits) p c = inPlace edits p c := by
  have hany : (Edit.sort edits).any (covers p) = edits.any (covers p) :=
    (perm_sort edits).any_eq
  rw [inPlace, inPlace, hany, h.filter_replacesFrom_sort]

/-- The order in which edits were recorded matters for insertions at one place only. -/
theorem spliced_sort
    (h : Applicable text edits)
    (p : Nat)
    (rest : List Char) :
    spliced (Edit.sort edits) p rest = spliced edits p rest := by
  induction rest generalizing p with
  | nil => exact insertion_sort edits p
  | cons c rest ih => rw [spliced, spliced, insertion_sort, h.inPlace_sort, ih]

/-- The sorted edits cut the text. -/
theorem cuts (h : Applicable text edits) :
    Cuts 0 text (Edit.sort edits) (Piece.cut 0 text (Edit.sort edits)) := by
  have hsorted := h.sort
  refine cuts_cut (List.nil_append text).symm rfl ?_ hsorted.whole ?_
  · exact fun x hx => ⟨Nat.zero_le _, hsorted.start_le x hx⟩
  · exact ((sorted_sort edits).pairwise_apart_iff hsorted.start_le).mp hsorted.apart

theorem output_cut (h : Applicable text edits) :
    (Piece.cut 0 text (Edit.sort edits)).flatMap Piece.output = spliced edits 0 text := by
  rw [h.cuts.output, h.spliced_sort]

end Applicable

end Edit

theorem editPieces_of_applicable
    {text : String}
    {edits : List Edit}
    (h : Edit.Applicable text.toList edits) :
    editPieces text edits = .ok (Piece.cut 0 text.toList (Edit.sort edits)) :=
  editPieces_eq_ok (fun e he => ⟨h.start_le e he, (h.whole e he).2.le_byteLength⟩) h.apart

end EsModules
