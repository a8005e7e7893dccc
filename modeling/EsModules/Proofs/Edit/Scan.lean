import EsModules.Proofs.Edit.Conflict
import EsModules.Proofs.SourceMap.Fidelity

/-!
# Edited text as a scan

Another account of what edits make of a text: a scan from the first byte to the last that writes
the insertions it meets, writes a replacement and jumps to its end, and copies every other
character.  It runs over the edits as they were recorded and knows neither their order by span nor
pieces.

What it puts out is the edited text.  It copies exactly the characters that no edit covers and
writes every edit once, in the order of the text (`Scanned`, `Cuts.scanned`).
-/

namespace EsModules

open Syntax Text

namespace Edit

/-- What a scan puts out at one step. -/
inductive Emission where
  /-- The character at an offset is copied. -/
  | copied (offset : Nat) (c : Char)
  /-- The text of an edit is written. -/
  | written (e : Edit)
  deriving DecidableEq, Repr

namespace Emission

/-- The characters that are put out. -/
def text : Emission → List Char
  | copied _ c => [c]
  | written e => e.text.toList

/-- The character that is copied, with its offset. -/
def copied? : Emission → Option (Nat × Char)
  | copied offset c => some (offset, c)
  | written _ => none

/-- The edit that is written. -/
def written? : Emission → Option Edit
  | copied _ _ => none
  | written e => some e

end Emission

open Emission

/-- The insertions at the byte `p` that are not empty, in the order in which they were recorded. -/
def insertionsAt (edits : List Edit) (p : Nat) : List Edit :=
  (edits.filter (insertsAt p)).filter (·.text != "")

/-- A scan from the byte `p` on that passes over everything before the byte `resume`.  At each
byte it writes the insertions first and then the replacement that begins there, behind which it
resumes, or copies the character. -/
def scan (edits : List Edit) : (resume p : Nat) → List Char → List Emission
  | resume, p, [] => if p < resume then [] else (insertionsAt edits p).map written
  | resume, p, c :: cs =>
      if p < resume then scan edits resume (p + c.utf8Size) cs
      else
        (insertionsAt edits p).map written ++
          match edits.find? (replacesFrom p) with
          | some e => written e :: scan edits e.span.stop (p + c.utf8Size) cs
          | none => copied p c :: scan edits resume (p + c.utf8Size) cs

/-- The characters of a text that begins at the byte `p`, with their offsets. -/
def placed : Nat → List Char → List (Nat × Char)
  | _, [] => []
  | p, c :: cs => (p, c) :: placed (p + c.utf8Size) cs

/-- The edit writes something or takes something away. -/
def hasEffect (e : Edit) : Bool :=
  !(e.isInsertion && e.text == "")

variable {edits : List Edit} {e : Edit} {p q resume : Nat}

theorem hasEffect_eq_false_iff :
    hasEffect e = false ↔ e.span.start = e.span.stop ∧ e.text = "" := by
  simp [hasEffect, isInsertion]

/-! ### Places -/

theorem placed_append (p : Nat) (front back : List Char) :
    placed p (front ++ back) = placed p front ++ placed (p + byteLength front) back := by
  induction front generalizing p with
  | nil => rfl
  | cons c front ih =>
      rw [List.cons_append, placed, placed, ih, byteLength_cons, Nat.add_assoc, List.cons_append]

theorem mem_placed
    {text : List Char}
    {x : Nat × Char}
    (h : x ∈ placed p text) :
    p ≤ x.1 ∧ x.1 < p + byteLength text := by
  induction text generalizing p with
  | nil => simp [placed] at h
  | cons c text ih =>
      have hpos := c.utf8Size_pos
      rw [byteLength_cons]
      rcases List.mem_cons.mp h with rfl | h
      · simp only
        omega
      · have := ih h
        omega

/-! ### Single bytes -/

theorem insertionsAt_cons_of_not
    (h : ¬insertsAt p e = true) :
    insertionsAt (e :: edits) p = insertionsAt edits p := by
  simp [insertionsAt, h]

theorem Behind.insertionsAt_eq_nil
    (h : Behind q edits)
    (hpq : p < q) :
    insertionsAt edits p = [] := by
  have hnone : ∀ x ∈ edits, ¬insertsAt p x = true := by
    intro x hx
    have := h x hx
    rw [insertsAt_iff]
    omega
  rw [insertionsAt, List.filter_eq_nil_iff.mpr hnone, List.filter_nil]

theorem Behind.find?_eq_none
    (h : Behind q edits)
    (hpq : p < q) :
    edits.find? (replacesFrom p) = none := by
  rw [List.find?_eq_none]
  intro x hx
  have := h x hx
  rw [replacesFrom_iff]
  omega

/-! ### One edit after the other -/

/-- Behind the byte from which it resumes, a scan goes on as if it had not jumped. -/
theorem scan_of_le
    (h : resume ≤ p)
    (rest : List Char) :
    scan edits resume p rest = scan edits 0 p rest := by
  induction rest generalizing p with
  | nil => simp [scan, Nat.not_lt.mpr h]
  | cons c rest ih =>
      rw [scan, scan, if_neg (Nat.not_lt.mpr h), if_neg (Nat.not_lt_zero p), ih (by omega)]

/-- A scan passes over what lies before the byte from which it resumes. -/
theorem scan_passed
    (source more : List Char)
    (h : p + byteLength source ≤ resume) :
    scan edits resume p (source ++ more) = scan edits resume (p + byteLength source) more := by
  induction source generalizing p with
  | nil => rfl
  | cons c source ih =>
      have hpos := c.utf8Size_pos
      rw [byteLength_cons] at h ⊢
      rw [List.cons_append, scan, if_pos (by omega), ih (by omega), Nat.add_assoc]

/-- The text before all edits is copied. -/
theorem scan_kept
    (before more : List Char)
    (h : Behind (p + byteLength before) edits) :
    scan edits 0 p (before ++ more) =
      (placed p before).map (fun x => copied x.1 x.2) ++
        scan edits 0 (p + byteLength before) more := by
  induction before generalizing p with
  | nil => rfl
  | cons c before ih =>
      have hlt : p < p + byteLength (c :: before) := by
        have := c.utf8Size_pos
        rw [byteLength_cons]
        omega
      rw [List.cons_append, scan, if_neg (Nat.not_lt_zero p), h.insertionsAt_eq_nil hlt,
        h.find?_eq_none hlt]
      rw [byteLength_cons, ← Nat.add_assoc] at h ⊢
      rw [ih h, placed]
      rfl

/-- An edit is not met again behind its end. -/
theorem scan_behind
    (hstart : e.span.start < p)
    (hstop : e.span.stop ≤ p)
    (more : List Char) :
    scan (e :: edits) resume p more = scan edits resume p more := by
  induction more generalizing p resume with
  | nil =>
      have hnot : ¬insertsAt p e = true := by
        rw [insertsAt_iff]
        omega
      rw [scan, scan, insertionsAt_cons_of_not hnot]
  | cons c more ih =>
      have hnot : ¬insertsAt p e = true := by
        rw [insertsAt_iff]
        omega
      have hnot' : ¬replacesFrom p e = true := by
        rw [replacesFrom_iff]
        omega
      simp only [scan, insertionsAt_cons_of_not hnot, List.find?_cons_of_neg hnot',
        ih (p := p + c.utf8Size) (by omega) (by omega)]

/-- An edit without effect is never met. -/
theorem scan_nothing
    (h : hasEffect e = false)
    (more : List Char) :
    scan (e :: edits) resume p more = scan edits resume p more := by
  obtain ⟨hspan, htext⟩ := hasEffect_eq_false_iff.mp h
  have hinsertions : ∀ q, insertionsAt (e :: edits) q = insertionsAt edits q := by
    intro q
    by_cases hinserts : insertsAt q e = true
    · simp [insertionsAt, hinserts, htext]
    · exact insertionsAt_cons_of_not hinserts
  have hnot : ∀ q, ¬replacesFrom q e = true := by
    intro q
    rw [replacesFrom_iff]
    omega
  induction more generalizing p resume with
  | nil => rw [scan, scan, hinsertions]
  | cons c more ih => simp only [scan, hinsertions, List.find?_cons_of_neg (hnot p), ih]

/-- An insertion is written before everything else at its place. -/
theorem scan_insertion
    (hstart : e.span.start = p)
    (hstop : e.span.stop = p)
    (htext : e.text ≠ "")
    (more : List Char) :
    scan (e :: edits) 0 p more = written e :: scan edits 0 p more := by
  have hinserts : insertsAt p e = true := insertsAt_iff.mpr ⟨hstart, hstop⟩
  have hinsertions : insertionsAt (e :: edits) p = e :: insertionsAt edits p := by
    simp [insertionsAt, hinserts, htext]
  have hnot : ¬replacesFrom p e = true := by
    rw [replacesFrom_iff]
    omega
  cases more with
  | nil => simp [scan, hinsertions]
  | cons c more =>
      have hpos := c.utf8Size_pos
      have hlater : ∀ resume, scan (e :: edits) resume (p + c.utf8Size) more =
          scan edits resume (p + c.utf8Size) more :=
        fun resume => scan_behind (by omega) (by omega) more
      simp only [scan, hinsertions, List.find?_cons_of_neg hnot, hlater, Nat.not_lt_zero,
        if_false, List.map_cons, List.cons_append]

/-- A replacement is written, and the scan jumps to its end. -/
theorem scan_replacement
    (c : Char)
    (source more : List Char)
    (hstart : e.span.start = p)
    (hstop : e.span.stop = p + byteLength (c :: source))
    (h : Behind e.span.stop edits) :
    scan (e :: edits) 0 p (c :: source ++ more) = written e :: scan edits 0 e.span.stop more := by
  have hpos := c.utf8Size_pos
  rw [byteLength_cons] at hstop
  have hnot : ¬insertsAt p e = true := by
    rw [insertsAt_iff]
    omega
  have hfrom : replacesFrom p e = true := replacesFrom_iff.mpr (by omega)
  have hjump : p + c.utf8Size + byteLength source = e.span.stop := by omega
  rw [List.cons_append, scan, if_neg (Nat.not_lt_zero p), insertionsAt_cons_of_not hnot,
    h.insertionsAt_eq_nil (by omega), List.find?_cons_of_pos hfrom]
  simp only [List.map_nil, List.nil_append]
  rw [scan_passed source more (Nat.le_of_eq hjump), hjump,
    scan_behind (by omega) (Nat.le_refl _), scan_of_le (Nat.le_refl _)]

/-- A scan copies the text before the first edit, writes the edit and goes on behind its span. -/
theorem scan_cons
    (before source more : List Char)
    (hstart : e.span.start = p + byteLength before)
    (hstop : e.span.stop = e.span.start + byteLength source)
    (h : Behind e.span.stop edits) :
    scan (e :: edits) 0 p (before ++ (source ++ more)) =
      (placed p before).map (fun x => copied x.1 x.2) ++
        (([e].filter hasEffect).map written ++ scan edits 0 e.span.stop more) := by
  have hall : Behind (p + byteLength before) (e :: edits) := h.cons (by omega) (by omega)
  rw [scan_kept before _ hall, ← hstart]
  congr 1
  cases source with
  | nil =>
      have hsame : e.span.stop = e.span.start := hstop
      by_cases htext : e.text = ""
      · have hnothing : hasEffect e = false := hasEffect_eq_false_iff.mpr ⟨hsame.symm, htext⟩
        rw [List.nil_append, scan_nothing hnothing, hsame]
        simp [hnothing]
      · have heffect : hasEffect e = true := by simp [hasEffect, htext]
        rw [List.nil_append, scan_insertion rfl hsame htext, hsame]
        simp [heffect]
  | cons c source =>
      have hpos := c.utf8Size_pos
      have heffect : hasEffect e = true := by
        rw [byteLength_cons] at hstop
        have hne : e.span.start ≠ e.span.stop := by omega
        simp [hasEffect, isInsertion, hne]
      rw [scan_replacement c source more rfl hstop h]
      simp [heffect]

/-- Without edits every character is copied. -/
theorem scan_nil (p : Nat) (rest : List Char) :
    scan [] 0 p rest = (placed p rest).map fun x => copied x.1 x.2 := by
  have hnone : Behind (p + byteLength rest) [] := by simp [Behind]
  have hkept := scan_kept rest [] hnone
  rw [List.append_nil] at hkept
  rw [hkept]
  simp [scan, insertionsAt]

/-! ### Whole texts -/

/-- What is put out by a scan of a text that begins at the byte `p`: which text it is, that the
characters outside the edits are copied, and that each edit is written once. -/
structure Scanned (edits : List Edit) (p : Nat) (rest output : List Char) : Prop where
  text : (scan edits 0 p rest).flatMap Emission.text = output
  copied : (scan edits 0 p rest).filterMap copied? =
    (placed p rest).filter fun x => !edits.any (covers x.1)
  written : (scan edits 0 p rest).filterMap written? = edits.filter hasEffect

theorem flatMap_text_copied (p : Nat) (text : List Char) :
    ((placed p text).map fun x => Emission.copied x.1 x.2).flatMap Emission.text = text := by
  induction text generalizing p with
  | nil => rfl
  | cons c text ih =>
      rw [placed, List.map_cons, List.flatMap_cons, ih, Emission.text, List.singleton_append]

theorem filterMap_copied?_copied (placed : List (Nat × Char)) :
    (placed.map fun x => Emission.copied x.1 x.2).filterMap copied? = placed := by
  simp [List.filterMap_map, Function.comp_def, copied?]

theorem filterMap_written?_copied (placed : List (Nat × Char)) :
    (placed.map fun x => Emission.copied x.1 x.2).filterMap written? = [] := by
  simp [List.filterMap_map, Function.comp_def, written?]

/-- The characters outside the edits are those before the first edit and those outside the others
behind it. -/
theorem filter_uncovered_cons
    (before source more : List Char)
    (hstart : e.span.start = p + byteLength before)
    (hstop : e.span.stop = e.span.start + byteLength source)
    (h : Behind e.span.stop edits) :
    ((placed p (before ++ (source ++ more))).filter fun x => !(e :: edits).any (covers x.1)) =
      placed p before ++
        (placed e.span.stop more).filter fun x => !edits.any (covers x.1) := by
  have hall : Behind (p + byteLength before) (e :: edits) := h.cons (by omega) (by omega)
  rw [placed_append, placed_append, ← hstart, ← hstop, List.filter_append, List.filter_append]
  have hbefore : ((placed p before).filter fun x => !(e :: edits).any (covers x.1)) =
      placed p before := by
    rw [List.filter_eq_self]
    intro x hx
    rw [hall.uncovered (mem_placed hx).2, Bool.not_false]
  have hsource : ((placed e.span.start source).filter fun x => !(e :: edits).any (covers x.1)) =
      [] := by
    rw [List.filter_eq_nil_iff]
    intro x hx
    have hplace := mem_placed hx
    have hcovers : covers x.1 e = true := covers_iff.mpr (by omega)
    simp [hcovers]
  have hmore : ((placed e.span.stop more).filter fun x => !(e :: edits).any (covers x.1)) =
      (placed e.span.stop more).filter fun x => !edits.any (covers x.1) := by
    refine List.filter_congr fun x hx => ?_
    rw [any_covers_cons (mem_placed hx).1]
  rw [hbefore, hsource, hmore, List.nil_append]

namespace Scanned

variable {rest output : List Char}

theorem nil (p : Nat) (rest : List Char) : Scanned [] p rest rest where
  text := by rw [scan_nil, flatMap_text_copied]
  copied := by
    rw [scan_nil, filterMap_copied?_copied]
    simp
  written := by rw [scan_nil, filterMap_written?_copied, List.filter_nil]

/-- An edit without effect changes nothing. -/
theorem cons_nothing
    (hnothing : hasEffect e = false)
    (h : Scanned edits p rest output) :
    Scanned (e :: edits) p rest output where
  text := by rw [scan_nothing hnothing, h.text]
  copied := by
    have hspan := (hasEffect_eq_false_iff.mp hnothing).1
    rw [scan_nothing hnothing, h.copied]
    simp only [any_covers_nothing hspan.symm]
  written := by
    rw [scan_nothing hnothing, h.written, List.filter_cons_of_neg (by simp [hnothing])]

/-- The first edit is written between the text before it and the scan of what is behind it. -/
theorem cons
    (before source : List Char)
    (hstart : e.span.start = p + byteLength before)
    (hstop : e.span.stop = e.span.start + byteLength source)
    (hbehind : Behind e.span.stop edits)
    (h : Scanned edits e.span.stop rest output) :
    Scanned (e :: edits) p (before ++ (source ++ rest))
      (before ++ (e.text.toList ++ output)) where
  text := by
    have heffect : (([e].filter hasEffect).map Emission.written).flatMap Emission.text =
        e.text.toList := by
      by_cases heffect : hasEffect e = true
      · simp [heffect, Emission.text]
      · have htext := (hasEffect_eq_false_iff.mp (Bool.eq_false_of_not_eq_true heffect)).2
        simp [heffect, htext]
    rw [scan_cons before source rest hstart hstop hbehind, List.flatMap_append,
      List.flatMap_append, flatMap_text_copied, heffect, h.text]
  copied := by
    have hnone : (([e].filter hasEffect).map Emission.written).filterMap copied? = [] := by
      simp [List.filterMap_map, Function.comp_def, copied?]
    rw [scan_cons before source rest hstart hstop hbehind,
      filter_uncovered_cons before source rest hstart hstop hbehind, List.filterMap_append,
      List.filterMap_append, filterMap_copied?_copied, hnone, h.copied, List.nil_append]
  written := by
    have hself : (([e].filter hasEffect).map Emission.written).filterMap written? =
        [e].filter hasEffect := by
      simp [List.filterMap_map, Function.comp_def, written?]
    rw [scan_cons before source rest hstart hstop hbehind, List.filterMap_append,
      List.filterMap_append, filterMap_written?_copied, hself, h.written, List.nil_append,
      ← List.filter_append, List.singleton_append]

end Scanned

/-- Scanning the text gives what its pieces put together give. -/
theorem Cuts.scanned
    {rest : List Char}
    {pieces : List Piece}
    (h : Cuts p rest edits pieces) :
    Scanned edits p rest (pieces.flatMap Piece.output) := by
  induction h with
  | done p rest => simpa [Piece.output] using Scanned.nil p rest
  | skip hspan htext _ ih =>
      exact ih.cons_nothing (hasEffect_eq_false_iff.mpr ⟨hspan.symm, htext⟩)
  | @insert p before behind e edits pieces hstart hstop hbehind _ ih =>
      simpa [Piece.output] using ih.cons before [] hstart hstop hbehind
  | @replace p before source behind e edits pieces hstart hstop _ hbehind _ ih =>
      simpa [Piece.output] using ih.cons before source hstart hstop hbehind

/-- A scan does not need the edits in order. -/
theorem Applicable.scan_sort
    {text : List Char}
    (h : Applicable text edits)
    (resume p : Nat)
    (rest : List Char) :
    scan (Edit.sort edits) resume p rest = scan edits resume p rest := by
  have hinsertions : ∀ q, insertionsAt (Edit.sort edits) q = insertionsAt edits q := by
    intro q
    rw [insertionsAt, filter_insertsAt_sort, insertionsAt]
  have hreplacement : ∀ q,
      (Edit.sort edits).find? (replacesFrom q) = edits.find? (replacesFrom q) := by
    intro q
    rw [← List.head?_filter, h.filter_replacesFrom_sort, List.head?_filter]
  induction rest generalizing resume p with
  | nil => rw [scan, scan, hinsertions]
  | cons c rest ih => simp only [scan, hinsertions, hreplacement, ih]

end Edit

open Edit

/-- Edits between characters that are not refused are apart. -/
theorem Edit.applicable_of_accepted
    {text : String}
    {edits : List Edit}
    {header footer source : String}
    {file : Option String}
    (hspans : ∀ e ∈ edits, e.span.start ≤ e.span.stop ∧
      Boundary text.toList e.span.start ∧ Boundary text.toList e.span.stop)
    (haccepted : ∀ offset, Rendered.ofEdits text edits header footer source file ≠
      .error (.conflictingEdit offset)) :
    Applicable text.toList edits := by
  have hnone : firstConflict (byteLength text.toList) 0 (Edit.sort edits) = none := by
    rw [Option.eq_none_iff_forall_ne_some]
    intro offset hsome
    exact haccepted offset ((Rendered.ofEdits_eq_error_iff ..).mpr hsome)
  have hle : ∀ e ∈ edits, e.span.start ≤ e.span.stop := fun e he => (hspans e he).1
  exact ⟨hle, fun e he => (hspans e he).2, ((firstConflict_sort_eq_none_iff hle).mp hnone).2⟩

/-- Rendering edits that are not refused puts out the header, what a scan of the text gives, and
the footer.  The scan copies exactly the characters outside the edits, unchanged and in order, and
writes each edit once, in the order of the text. -/
theorem Rendered.ofEdits_code_scan
    (text : String)
    (edits : List Edit)
    (header footer source : String)
    (file : Option String)
    (hspans : ∀ e ∈ edits, e.span.start ≤ e.span.stop ∧
      Boundary text.toList e.span.start ∧ Boundary text.toList e.span.stop)
    (haccepted : ∀ offset, Rendered.ofEdits text edits header footer source file ≠
      .error (.conflictingEdit offset)) :
    ∃ r, Rendered.ofEdits text edits header footer source file = .ok r ∧
      r.code.toList = header.toList ++ (scan edits 0 0 text.toList).flatMap Emission.text ++
        footer.toList ∧
      (scan edits 0 0 text.toList).filterMap Emission.copied? =
        ((placed 0 text.toList).filter fun x => !edits.any (covers x.1)) ∧
      (scan edits 0 0 text.toList).filterMap Emission.written? =
        (Edit.sort edits).filter hasEffect := by
  have happlicable := applicable_of_accepted hspans haccepted
  have hscanned := happlicable.cuts.scanned
  rw [happlicable.output_cut] at hscanned
  refine ⟨_, Rendered.ofEdits_eq_ok happlicable header footer source file, ?_, ?_, ?_⟩
  · rw [← happlicable.scan_sort, hscanned.text]
    simp
  · rw [← happlicable.scan_sort, hscanned.copied]
    simp only [(perm_sort edits).any_eq]
  · rw [← happlicable.scan_sort, hscanned.written]

/-- Insertions at both ends of a removed span, two of them at the beginning of the text, one at
its end, and a replacement that follows the removed span directly. -/
theorem Rendered.ofEdits_code_scan_removedSpan :
    let text := "a😀b"
    let edits := [.rename ⟨1, 5⟩ "w", .insert 6 "!", .insert 0 "x", .remove ⟨0, 1⟩, .insert 1 "y",
      .insert 0 "z"]
    (∀ e ∈ edits, e.span.start ≤ e.span.stop ∧
      Boundary text.toList e.span.start ∧ Boundary text.toList e.span.stop) ∧
    (∀ offset, Rendered.ofEdits text edits "h" "f" "in.js" none ≠
      .error (.conflictingEdit offset)) ∧
    ∃ r, Rendered.ofEdits text edits "h" "f" "in.js" none = .ok r ∧ r.code = "hxzywb!f" := by
  intro text edits
  have hboundary : ∀ offset ∈ [0, 1, 5, 6], Boundary text.toList offset := by
    intro offset hoffset
    simp only [List.mem_cons, List.not_mem_nil, or_false] at hoffset
    rcases hoffset with rfl | rfl | rfl | rfl
    · exact ⟨[], text.toList, rfl, rfl⟩
    · exact ⟨['a'], ['😀', 'b'], by decide, by decide⟩
    · exact ⟨['a', '😀'], ['b'], by decide, by decide⟩
    · exact ⟨text.toList, [], by simp, by decide⟩
  have hends : ∀ e ∈ edits, e.span.start ≤ e.span.stop ∧ e.span.start ∈ [0, 1, 5, 6] ∧
      e.span.stop ∈ [0, 1, 5, 6] := by decide
  have hspans : ∀ e ∈ edits, e.span.start ≤ e.span.stop ∧
      Boundary text.toList e.span.start ∧ Boundary text.toList e.span.stop := by
    intro e he
    obtain ⟨hle, hstart, hstop⟩ := hends e he
    exact ⟨hle, hboundary _ hstart, hboundary _ hstop⟩
  have hnone : firstConflict (byteLength text.toList) 0 (Edit.sort edits) = none := by decide
  have haccepted : ∀ offset, Rendered.ofEdits text edits "h" "f" "in.js" none ≠
      .error (.conflictingEdit offset) := by
    intro offset
    rw [ne_eq, Rendered.ofEdits_eq_error_iff, hnone]
    simp
  obtain ⟨r, hr, hcode, -⟩ :=
    Rendered.ofEdits_code_scan text edits "h" "f" "in.js" none hspans haccepted
  have hscan : "h".toList ++ (scan edits 0 0 text.toList).flatMap Emission.text ++ "f".toList =
      "hxzywb!f".toList := by decide
  exact ⟨hspans, haccepted, r, hr, String.toList_inj.mp (hcode.trans hscan)⟩

end EsModules
