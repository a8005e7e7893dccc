import EsModules.Proofs.Edit.Spliced
import EsModules.Proofs.SourceMap.Document
import EsModules.Proofs.SourceMap.Place

/-!
# Fidelity of source maps

A mapping is faithful if it ties a character that is kept to the place where that character ended
up, or the beginning of a replacement to the beginning of the span that it replaces.

The mappings of an edited text are found by induction on how the edits cut it (`Edit.Cuts`): each
is of one of these two forms (`Cuts.mem_ofPieces`), the beginning of each line that is kept has one
(`Cuts.lineStart_mem_ofPieces`), and both of their places grow along the list
(`Mapping.pairwise_ofPieces`).  That the lines of the output do not go back is all that the JSON of
a map needs to be read as it was written, so rendering never fails for it (`Rendered.ofEdits_eq`).
-/

namespace EsModules

open Syntax Text

namespace Mapping

variable {generated origin : Place} {m : Mapping}

/-- The mapping `a` stands before `b` in the output and in the source. -/
def Precedes (a b : Mapping) : Prop :=
  a.generated < b.generated ∧ a.origin < b.origin

/-- The mapping lies in a stretch of the output and in a stretch of the source. -/
def Within (generated generated' origin origin' : Place) (m : Mapping) : Prop :=
  (generated ≤ m.generated ∧ m.generated < generated') ∧ (origin ≤ m.origin ∧ m.origin < origin')

/-! ### Kept text -/

/-- A mapping of kept text stands at one of its characters. -/
theorem mem_ofKept
    {fresh : Bool}
    {text : List Char}
    (h : m ∈ ofKept fresh generated origin text) :
    ∃ front c back, text = front ++ c :: back ∧
      m = ⟨generated.advance front, origin.advance front, none⟩ := by
  induction text generalizing fresh generated origin with
  | nil => simp [ofKept] at h
  | cons d text ih =>
      by_cases hhere : m = ⟨generated, origin, none⟩
      · exact ⟨[], d, text, rfl, hhere⟩
      · have hmore : m ∈ ofKept (d == '\n') (generated.step d) (origin.step d) text := by
          by_cases hfeed : d = '\n'
          · simpa [ofKept, hfeed] using h
          · cases fresh <;> simpa [ofKept, hfeed, hhere] using h
        obtain ⟨front, c, back, rfl, hm⟩ := ih hmore
        exact ⟨d :: front, c, back, rfl, hm⟩

/-- The first character of a line has a mapping unless it is the line feed. -/
theorem lineStart_mem_ofKept
    {fresh : Bool}
    {front : List Char}
    {c : Char}
    (back : List Char)
    (hc : c ≠ '\n')
    (hstart : front = [] ∧ fresh = true ∨ front.getLast? = some '\n') :
    ⟨generated.advance front, origin.advance front, none⟩ ∈
      ofKept fresh generated origin (front ++ c :: back) := by
  induction front generalizing fresh generated origin with
  | nil =>
      obtain ⟨-, rfl⟩ | hlast := hstart
      · simp [ofKept, hc]
      · simp at hlast
  | cons d front ih =>
      have hlast : (d :: front).getLast? = some '\n' := by simpa using hstart
      have hnext : front = [] ∧ (d == '\n') = true ∨ front.getLast? = some '\n' := by
        cases front with
        | nil => simpa using hlast
        | cons x front => exact .inr (by simpa using hlast)
      have hmore :
          ⟨(generated.step d).advance front, (origin.step d).advance front, none⟩ ∈
            ofKept (d == '\n') (generated.step d) (origin.step d) (front ++ c :: back) :=
        ih hnext
      by_cases hfeed : d = '\n'
      · simpa [ofKept, hfeed] using hmore
      · cases fresh <;> simp_all [ofKept]

/-- Kept text has no names. -/
theorem filter_name_ofKept (fresh : Bool) (generated origin : Place) (text : List Char) :
    (ofKept fresh generated origin text).filter (·.name.isSome) = [] := by
  rw [List.filter_eq_nil_iff]
  intro m hm
  obtain ⟨front, c, back, -, rfl⟩ := mem_ofKept hm
  simp

theorem within_ofKept
    {fresh : Bool}
    {text : List Char}
    (h : m ∈ ofKept fresh generated origin text) :
    Within generated (generated.advance text) origin (origin.advance text) m := by
  obtain ⟨front, c, back, rfl, rfl⟩ := mem_ofKept h
  have hbehind : c :: back ≠ [] := by simp
  rw [Place.advance_append, Place.advance_append]
  exact ⟨⟨Place.le_advance _ _, Place.lt_advance _ hbehind⟩,
    ⟨Place.le_advance _ _, Place.lt_advance _ hbehind⟩⟩

theorem pairwise_ofKept (fresh : Bool) (generated origin : Place) (text : List Char) :
    (ofKept fresh generated origin text).Pairwise Precedes := by
  induction text generalizing fresh generated origin with
  | nil => exact .nil
  | cons d text ih =>
      have hmore := ih (d == '\n') (generated.step d) (origin.step d)
      have hlater : ∀ m ∈ ofKept (d == '\n') (generated.step d) (origin.step d) text,
          Precedes ⟨generated, origin, none⟩ m := by
        intro m hm
        have hwithin := within_ofKept hm
        exact ⟨Place.lt_of_lt_of_le (Place.lt_step _ d) hwithin.1.1,
          Place.lt_of_lt_of_le (Place.lt_step _ d) hwithin.2.1⟩
      by_cases hfeed : d = '\n'
      · simpa [ofKept, hfeed] using hmore
      · cases fresh with
        | false => simpa [ofKept, hfeed] using hmore
        | true =>
            have hcons := List.pairwise_cons.mpr ⟨hlater, hmore⟩
            simpa [ofKept, hfeed] using hcons

/-! ### Edited text -/

/-- The mapping of a character that is kept, in a text that begins at the byte `p`. -/
def OfKept (edits : List Edit) (p : Nat) (rest : List Char) (generated origin : Place)
    (m : Mapping) : Prop :=
  ∃ front c back, rest = front ++ c :: back ∧
    edits.any (Edit.covers (p + byteLength front)) = false ∧
    m = ⟨generated.advance (Edit.spliced edits p front), origin.advance front, none⟩

/-- The mapping of the replacement `e`, in a text that begins at the byte `p`. -/
def OfReplaced (edits : List Edit) (p : Nat) (rest : List Char) (generated origin : Place)
    (m : Mapping) (e : Edit) : Prop :=
  e ∈ edits ∧ ∃ front source behind, rest = front ++ (source ++ behind) ∧
    e.span.start = p + byteLength front ∧
    e.span.stop = e.span.start + byteLength source ∧
    source ≠ [] ∧ e.text ≠ "" ∧
    m = ⟨generated.advance (Edit.spliced edits p front), origin.advance front,
      if e.named then some (String.ofList source) else none⟩

end Mapping

namespace Edit

open Mapping

variable {edits : List Edit} {e : Edit} {p : Nat} {generated origin : Place} {m : Mapping}

/-- Before the edits the output is the text itself. -/
theorem spliced_front
    {front back : List Char}
    {c : Char}
    (h : Behind (p + byteLength (front ++ c :: back)) edits) :
    spliced edits p front = front ∧ edits.any (covers (p + byteLength front)) = false := by
  have hlt : p + byteLength front < p + byteLength (front ++ c :: back) := by
    have := c.utf8Size_pos
    rw [byteLength_append, byteLength_cons]
    omega
  have hfront : Behind (p + byteLength front) edits := by
    intro x hx
    have := h x hx
    omega
  have hkept := spliced_kept front [] hfront
  rw [List.append_nil, spliced, h.insertion_eq_nil hlt, List.append_nil] at hkept
  exact ⟨hkept, h.uncovered hlt⟩

/-- An edit covers nothing behind its end. -/
theorem any_covers_cons
    {q : Nat}
    (h : e.span.stop ≤ q) :
    (e :: edits).any (covers q) = edits.any (covers q) := by
  have hnot : covers q e = false := by
    rw [Bool.eq_false_iff, ne_eq, covers_iff]
    omega
  rw [List.any_cons, hnot, Bool.false_or]

/-- Text before the edits keeps its mappings. -/
theorem ofKept_of_mem
    {before : List Char}
    (more : List Char)
    (hbehind : Behind (p + byteLength before) edits)
    (h : m ∈ ofKept true generated origin before) :
    OfKept edits p (before ++ more) generated origin m := by
  obtain ⟨front, c, back, rfl, rfl⟩ := mem_ofKept h
  obtain ⟨hsame, huncovered⟩ := spliced_front hbehind
  refine ⟨front, c, back ++ more, by simp, huncovered, ?_⟩
  rw [hsame]

section Front

variable {before behind : List Char}

/-- What is kept behind an edit is kept. -/
theorem ofKept_cons
    (source : List Char)
    (hstart : e.span.start = p + byteLength before)
    (hstop : e.span.stop = e.span.start + byteLength source)
    (hbehind : Behind e.span.stop edits)
    (h : OfKept edits e.span.stop behind
      ((generated.advance before).advance e.text.toList)
      ((origin.advance before).advance source) m) :
    OfKept (e :: edits) p (before ++ (source ++ behind)) generated origin m := by
  obtain ⟨front, c, back, rfl, huncovered, rfl⟩ := h
  refine ⟨before ++ (source ++ front), c, back, by simp, ?_, ?_⟩
  · have hplace : p + byteLength (before ++ (source ++ front)) =
        e.span.stop + byteLength front := by
      rw [byteLength_append, byteLength_append]
      omega
    rw [hplace, any_covers_cons (by omega), huncovered]
  · rw [spliced_cons before source front hstart hstop hbehind]
    simp only [Place.advance_append]

/-- What is replaced behind an edit is replaced. -/
theorem ofReplaced_cons
    {x : Edit}
    (source : List Char)
    (hstart : e.span.start = p + byteLength before)
    (hstop : e.span.stop = e.span.start + byteLength source)
    (hbehind : Behind e.span.stop edits)
    (h : OfReplaced edits e.span.stop behind
      ((generated.advance before).advance e.text.toList)
      ((origin.advance before).advance source) m x) :
    OfReplaced (e :: edits) p (before ++ (source ++ behind)) generated origin m x := by
  obtain ⟨hx, front, source', behind', rfl, hstart', hstop', hsource', htext, rfl⟩ := h
  refine ⟨List.mem_cons_of_mem e hx,
    before ++ (source ++ front), source', behind', by simp, ?_, hstop', hsource', htext, ?_⟩
  · rw [byteLength_append, byteLength_append]
    omega
  · rw [spliced_cons before source front hstart hstop hbehind]
    simp only [Place.advance_append]

/-- The first edit replaces its span. -/
theorem ofReplaced_first
    {source : List Char}
    (hstart : e.span.start = p + byteLength before)
    (hstop : e.span.stop = e.span.start + byteLength source)
    (hsource : source ≠ [])
    (htext : e.text ≠ "")
    (hbehind : Behind e.span.stop edits) :
    OfReplaced (e :: edits) p (before ++ (source ++ behind)) generated origin
      ⟨generated.advance before, origin.advance before,
        if e.named then some (String.ofList source) else none⟩ e := by
  have hpos : byteLength source ≠ 0 := fun hzero => hsource (byteLength_eq_zero.mp hzero)
  have hall : Behind (p + byteLength before) (e :: edits) := hbehind.cons (by omega) (by omega)
  have hnone : insertion (e :: edits) (p + byteLength before) = [] := by
    apply insertion_eq_nil
    intro x hx
    rw [insertsAt_iff]
    rcases List.mem_cons.mp hx with rfl | hx
    · omega
    · have := hbehind x hx
      omega
  have hsame := spliced_kept before [] hall
  rw [List.append_nil, spliced, hnone, List.append_nil] at hsame
  refine ⟨List.mem_cons_self, before, source, behind, rfl, hstart, hstop, hsource, htext, ?_⟩
  rw [hsame]

end Front

/-- An insertion of nothing covers nothing. -/
theorem any_covers_nothing
    (hspan : e.span.stop = e.span.start)
    (q : Nat) :
    (e :: edits).any (covers q) = edits.any (covers q) := by
  have hnot : covers q e = false := by
    rw [Bool.eq_false_iff, ne_eq, covers_iff]
    omega
  rw [List.any_cons, hnot, Bool.false_or]

theorem ofReplaced_nothing
    {rest : List Char}
    {x : Edit}
    (hspan : e.span.stop = e.span.start)
    (htext : e.text = "")
    (h : OfReplaced edits p rest generated origin m x) :
    OfReplaced (e :: edits) p rest generated origin m x := by
  obtain ⟨hx, front, source, behind, hrest, hstart, hstop, hsource, hfilled, hat⟩ := h
  refine ⟨List.mem_cons_of_mem e hx, front, source, behind, hrest, hstart, hstop, hsource,
    hfilled, ?_⟩
  rw [spliced_nothing hspan htext, hat]

namespace Cuts

variable {rest : List Char} {pieces : List Piece}

/-- Every mapping is one of a kept character or one of a replacement. -/
theorem mem_ofPieces
    (h : Cuts p rest edits pieces)
    (hm : m ∈ ofPieces generated origin pieces) :
    OfKept edits p rest generated origin m ∨
      ∃ e, OfReplaced edits p rest generated origin m e := by
  induction h generalizing generated origin with
  | done p rest =>
      have hnone : Behind (p + byteLength rest) [] := by simp [Behind]
      have hkept : m ∈ ofKept true generated origin rest := by
        simpa [ofPieces, ofPiece] using hm
      have hall := ofKept_of_mem [] hnone hkept
      rw [List.append_nil] at hall
      exact .inl hall
  | skip hspan htext _ ih =>
      rcases ih hm with ⟨front, c, back, hrest, huncovered, hat⟩ | ⟨x, hreplaced⟩
      · refine .inl ⟨front, c, back, hrest, ?_, ?_⟩
        · rw [any_covers_nothing hspan, huncovered]
        · rw [spliced_nothing hspan htext, hat]
      · exact .inr ⟨x, ofReplaced_nothing hspan htext hreplaced⟩
  | @insert p before behind e edits pieces hstart hstop hbehind _ ih =>
      have hall : Behind (p + byteLength before) (e :: edits) :=
        hbehind.cons (by omega) (by omega)
      simp only [ofPieces, ofPiece, Piece.output, Piece.source, List.nil_append,
        List.mem_append] at hm
      rcases hm with hm | hm
      · exact .inl (ofKept_of_mem _ hall hm)
      · rcases ih hm with hkept | ⟨x, hreplaced⟩
        · exact .inl (ofKept_cons [] hstart hstop hbehind hkept)
        · exact .inr ⟨x, ofReplaced_cons [] hstart hstop hbehind hreplaced⟩
  | @replace p before source behind e edits pieces hstart hstop hsource hbehind _ ih =>
      have hall : Behind (p + byteLength before) (e :: edits) :=
        hbehind.cons (by omega) (by omega)
      simp only [ofPieces, ofPiece, Piece.output, Piece.source, List.mem_append] at hm
      rcases hm with hm | hm | hm
      · exact .inl (ofKept_of_mem _ hall hm)
      · split at hm
        · simp at hm
        · rename_i hfilled
          rw [List.mem_singleton.mp hm]
          have htext : e.text ≠ "" := by
            intro hnone
            simp [hnone] at hfilled
          exact .inr ⟨e, ofReplaced_first hstart hstop hsource htext hbehind⟩
      · rcases ih hm with hkept | ⟨x, hreplaced⟩
        · exact .inl (ofKept_cons source hstart hstop hbehind hkept)
        · exact .inr ⟨x, ofReplaced_cons source hstart hstop hbehind hreplaced⟩

/-- The mappings with a name are those of the edits that keep a name, in order. -/
theorem named_ofPieces
    (generated origin : Place)
    (h : Cuts p rest edits pieces)
    (hnamed : ∀ e ∈ edits, e.named = true → e.span.start < e.span.stop ∧ e.text ≠ "") :
    List.Forall₂ (OfReplaced edits p rest generated origin)
      ((ofPieces generated origin pieces).filter (·.name.isSome)) (edits.filter (·.named)) := by
  induction h generalizing generated origin with
  | done p rest => simp [ofPieces, ofPiece, filter_name_ofKept]
  | @skip p rest e edits pieces hspan htext _ ih =>
      have hnot : ¬e.named = true := by
        intro hname
        have := (hnamed e (by simp) hname).1
        omega
      rw [List.filter_cons_of_neg hnot]
      refine (ih _ _ fun x hx => hnamed x (by simp [hx])).imp ?_
      exact fun _ _ => ofReplaced_nothing hspan htext
  | @insert p before behind e edits pieces hstart hstop hbehind _ ih =>
      have hnot : ¬e.named = true := by
        intro hname
        have := (hnamed e (by simp) hname).1
        omega
      rw [List.filter_cons_of_neg hnot]
      simp only [ofPieces, ofPiece, Piece.output, Piece.source, List.nil_append,
        List.filter_append, filter_name_ofKept]
      refine (ih _ _ fun x hx => hnamed x (by simp [hx])).imp ?_
      exact fun _ _ => ofReplaced_cons [] hstart hstop hbehind
  | @replace p before source behind e edits pieces hstart hstop hsource hbehind _ ih =>
      have hrest := (ih ((generated.advance before).advance e.text.toList)
        ((origin.advance before).advance source) fun x hx => hnamed x (by simp [hx])).imp
        fun _ _ => ofReplaced_cons source hstart hstop hbehind
      simp only [ofPieces, ofPiece, Piece.output, Piece.source, List.filter_append,
        filter_name_ofKept, List.nil_append]
      by_cases hname : e.named = true
      · have htext := (hnamed e (by simp) hname).2
        have hfilled : ¬e.text.toList.isEmpty = true := by simpa using htext
        rw [if_neg hfilled, List.filter_cons_of_pos (by simp [hname]), List.filter_nil,
          List.filter_cons_of_pos hname]
        exact .cons (ofReplaced_first hstart hstop hsource htext hbehind) hrest
      · rw [List.filter_cons_of_neg hname]
        split
        · exact hrest
        · simpa [hname] using hrest

/-- Where a character of two texts put together comes from. -/
theorem cut_append
    {before more front back : List Char}
    {c : Char}
    (h : before ++ more = front ++ c :: back) :
    (∃ between, before = front ++ c :: between) ∨
      ∃ front', front = before ++ front' ∧ more = front' ++ c :: back := by
  rcases List.append_eq_append_iff.mp h with ⟨front', hfront, hmore⟩ | ⟨between, hbefore, hback⟩
  · exact .inr ⟨front', hfront, hmore⟩
  · cases between with
    | nil =>
        rw [List.append_nil] at hbefore
        exact .inr ⟨[], by simp [hbefore], by simpa using hback.symm⟩
    | cons d between =>
        obtain ⟨rfl, -⟩ := List.cons_eq_cons.mp hback
        exact .inl ⟨between, hbefore⟩

/-- A line that begins with a character that is kept has a mapping there. -/
theorem lineStart_mem_ofPieces
    {front back : List Char}
    {c : Char}
    (h : Cuts p rest edits pieces)
    (hrest : rest = front ++ c :: back)
    (hc : c ≠ '\n')
    (hline : LineStart front)
    (huncovered : edits.any (covers (p + byteLength front)) = false) :
    ⟨generated.advance (spliced edits p front), origin.advance front, none⟩ ∈
      ofPieces generated origin pieces := by
  induction h generalizing generated origin front with
  | done p rest =>
      subst hrest
      have hnone : Behind (p + byteLength (front ++ c :: back)) [] := by simp [Behind]
      rw [(spliced_front hnone).1]
      simpa [ofPieces, ofPiece] using
        lineStart_mem_ofKept back hc (hline.imp_left fun hnil => ⟨hnil, rfl⟩)
  | skip hspan htext _ ih =>
      rw [any_covers_nothing hspan] at huncovered
      rw [spliced_nothing hspan htext]
      exact ih hrest hline huncovered
  | @insert p before behind e edits pieces hstart hstop hbehind _ ih =>
      have hall : Behind (p + byteLength before) (e :: edits) :=
        hbehind.cons (by omega) (by omega)
      simp only [ofPieces, ofPiece, Piece.output, Piece.source, List.nil_append, List.mem_append]
      rcases cut_append hrest with ⟨between, rfl⟩ | ⟨front, rfl, rfl⟩
      · rw [(spliced_front hall).1]
        exact .inl (lineStart_mem_ofKept between hc (hline.imp_left fun hnil => ⟨hnil, rfl⟩))
      · have hsplice := spliced_cons before [] front hstart hstop hbehind
        have hplace : p + byteLength (before ++ front) = e.span.stop + byteLength front := by
          rw [byteLength_append]
          omega
        rw [hplace, any_covers_cons (by omega)] at huncovered
        rw [List.nil_append] at hsplice
        rw [hsplice]
        simp only [Place.advance_append]
        exact .inr (ih rfl hline.of_append huncovered)
  | @replace p before source behind e edits pieces hstart hstop hsource hbehind _ ih =>
      have hall : Behind (p + byteLength before) (e :: edits) :=
        hbehind.cons (by omega) (by omega)
      simp only [ofPieces, ofPiece, Piece.output, Piece.source, List.mem_append]
      rcases cut_append hrest with ⟨between, rfl⟩ | ⟨front, rfl, hmore⟩
      · rw [(spliced_front hall).1]
        exact .inl (lineStart_mem_ofKept between hc (hline.imp_left fun hnil => ⟨hnil, rfl⟩))
      · rcases cut_append hmore with ⟨between, rfl⟩ | ⟨front, rfl, rfl⟩
        · -- the character is one of those that the edit replaces
          have hpos := c.utf8Size_pos
          rw [byteLength_append, byteLength_cons] at hstop
          have hcovers : covers (p + byteLength (before ++ front)) e = true := by
            rw [covers_iff, byteLength_append]
            omega
          rw [List.any_cons, hcovers, Bool.true_or] at huncovered
          cases huncovered
        · have hplace : p + byteLength (before ++ (source ++ front)) =
              e.span.stop + byteLength front := by
            rw [byteLength_append, byteLength_append]
            omega
          rw [hplace, any_covers_cons (by omega)] at huncovered
          rw [spliced_cons before source front hstart hstop hbehind]
          simp only [Place.advance_append]
          exact .inr (.inr (ih rfl hline.of_append.of_append huncovered))

/-- A replaced piece has some text to replace. -/
theorem source_ne_nil
    {source text : List Char}
    {named : Bool}
    (h : Cuts p rest edits pieces)
    (hmem : .replaced source text named ∈ pieces) :
    source ≠ [] := by
  induction h with
  | done p rest => simp at hmem
  | skip _ _ _ ih => exact ih hmem
  | insert _ _ _ _ ih => exact ih (by simpa using hmem)
  | replace _ _ hsource _ _ ih =>
      simp only [List.mem_cons, reduceCtorEq, false_or] at hmem
      rcases hmem with heq | hmem
      · cases heq
        exact hsource
      · exact ih hmem

end Cuts

end Edit

namespace Mapping

variable {generated origin : Place} {m : Mapping}

/-- The mappings of a piece lie in the stretches that the piece covers. -/
theorem within_ofPiece
    {piece : Piece}
    (hfilled : ∀ text named, piece ≠ .replaced [] text named)
    (hm : m ∈ ofPiece generated origin piece) :
    Within generated (generated.advance piece.output) origin (origin.advance piece.source) m := by
  cases piece with
  | kept text => exact within_ofKept hm
  | replaced source text named =>
      have hsource : source ≠ [] := by
        rintro rfl
        exact hfilled text named rfl
      simp only [ofPiece] at hm
      split at hm
      · cases hm
      · rename_i htext
        rw [List.mem_singleton.mp hm]
        rw [List.isEmpty_iff] at htext
        exact ⟨⟨Place.le_refl _, Place.lt_advance _ htext⟩,
          ⟨Place.le_refl _, Place.lt_advance _ hsource⟩⟩
  | inserted text => simp [ofPiece] at hm

theorem pairwise_ofPiece (generated origin : Place) (piece : Piece) :
    (ofPiece generated origin piece).Pairwise Precedes := by
  cases piece with
  | kept text => exact pairwise_ofKept true generated origin text
  | replaced source text named =>
      simp only [ofPiece]
      split <;> simp
  | inserted text => exact .nil

/-- Pieces lie one behind the other, and so do their mappings. -/
theorem pairwise_ofPieces
    {pieces : List Piece}
    (hfilled : ∀ text named, .replaced [] text named ∉ pieces) :
    (ofPieces generated origin pieces).Pairwise Precedes ∧
      ∀ m ∈ ofPieces generated origin pieces, generated ≤ m.generated ∧ origin ≤ m.origin := by
  induction pieces generalizing generated origin with
  | nil => simp [ofPieces]
  | cons piece pieces ih =>
      have hpiece : ∀ text named, piece ≠ .replaced [] text named := by
        rintro text named rfl
        exact hfilled text named (by simp)
      have hwithin : ∀ m ∈ ofPiece generated origin piece,
          Within generated (generated.advance piece.output)
            origin (origin.advance piece.source) m :=
        fun m hm => within_ofPiece hpiece hm
      obtain ⟨hrest, hlater⟩ :=
        @ih (generated.advance piece.output) (origin.advance piece.source)
          fun text named hmem => hfilled text named (by simp [hmem])
      refine ⟨List.pairwise_append.mpr ⟨pairwise_ofPiece generated origin piece, hrest, ?_⟩, ?_⟩
      · intro a ha b hb
        obtain ⟨⟨-, hgenerated⟩, -, horigin⟩ := hwithin a ha
        obtain ⟨hgenerated', horigin'⟩ := hlater b hb
        exact ⟨Place.lt_of_lt_of_le hgenerated hgenerated',
          Place.lt_of_lt_of_le horigin horigin'⟩
      · intro m hm
        rcases List.mem_append.mp hm with hm | hm
        · exact ⟨(hwithin m hm).1.1, (hwithin m hm).2.1⟩
        · obtain ⟨hgenerated, horigin⟩ := hlater m hm
          exact ⟨Place.le_trans (Place.le_advance _ _) hgenerated,
            Place.le_trans (Place.le_advance _ _) horigin⟩

/-- The mappings of a piece stand in its output or at the end of it. -/
theorem generated_ofPiece
    {piece : Piece}
    {m : Mapping}
    (hm : m ∈ ofPiece generated origin piece) :
    generated ≤ m.generated ∧ m.generated ≤ generated.advance piece.output := by
  cases piece with
  | kept text =>
      have hwithin := within_ofKept hm
      exact ⟨hwithin.1.1, Place.le_of_lt hwithin.1.2⟩
  | replaced source text named =>
      simp only [ofPiece] at hm
      split at hm
      · cases hm
      · rw [List.mem_singleton.mp hm]
        exact ⟨Place.le_refl _, Place.le_advance _ _⟩
  | inserted text => simp [ofPiece] at hm

/-- The mappings of any pieces stand in the order of the output, also where a replacement has no
source. -/
theorem pairwise_generated_ofPieces (pieces : List Piece) :
    (ofPieces generated origin pieces).Pairwise (fun a b => a.generated ≤ b.generated) ∧
      ∀ m ∈ ofPieces generated origin pieces, generated ≤ m.generated := by
  induction pieces generalizing generated origin with
  | nil => simp [ofPieces]
  | cons piece pieces ih =>
      obtain ⟨hrest, hbehind⟩ :=
        @ih (generated.advance piece.output) (origin.advance piece.source)
      rw [ofPieces]
      refine ⟨List.pairwise_append.mpr ⟨?_, hrest, ?_⟩, ?_⟩
      · exact (pairwise_ofPiece generated origin piece).imp fun h => Place.le_of_lt h.1
      · intro a ha b hb
        exact Place.le_trans (generated_ofPiece ha).2 (hbehind b hb)
      · intro m hm
        rcases List.mem_append.mp hm with hm | hm
        · exact (generated_ofPiece hm).1
        · exact Place.le_trans (Place.le_advance _ _) (hbehind m hm)

theorem pairwise_line_ofPieces (generated origin : Place) (pieces : List Piece) :
    (ofPieces generated origin pieces).Pairwise
      fun a b => a.generated.line ≤ b.generated.line := by
  refine (pairwise_generated_ofPieces pieces).1.imp fun hle => ?_
  rcases hle with hline | ⟨hline, -⟩
  · exact Nat.le_of_lt hline
  · exact Nat.le_of_eq hline

end Mapping

/-! ### Rendered text -/

open Edit

/-- The mapping leads from the output to the source, where `edits` are applied to `text` behind
`header`. -/
inductive Mapping.Faithful (text : List Char) (edits : List Edit) (header code : List Char)
    (m : Mapping) : Prop where
  /-- Both places are those of one character. -/
  | kept
      (front : List Char)
      (c : Char)
      (back back' : List Char)
      (htext : text = front ++ c :: back)
      (huncovered : edits.any (covers (byteLength front)) = false)
      (hcode : code = header ++ spliced edits 0 front ++ c :: back')
      (hgenerated : m.generated = .behind (header ++ spliced edits 0 front))
      (horigin : m.origin = .behind front)
      (hname : m.name = none)
  /-- A replacement begins at the one place, and the span that it replaces at the other one. -/
  | replaced
      (e : Edit)
      (he : e ∈ edits)
      (front source back back' : List Char)
      (htext : text = front ++ (source ++ back))
      (hspan : e.span = ⟨byteLength front, byteLength (front ++ source)⟩)
      (hsource : source ≠ [])
      (hfilled : e.text ≠ "")
      (hcode : code = header ++ spliced edits 0 front ++ (e.text.toList ++ back'))
      (hgenerated : m.generated = .behind (header ++ spliced edits 0 front))
      (horigin : m.origin = .behind front)
      (hname : m.name = if e.named then some (String.ofList source) else none)

/-- The output is the edited text between the header and the footer, and its source map is
faithful and knows the beginning of each line. -/
structure Rendered.Faithful (text : String) (edits : List Edit) (header footer : String)
    (r : Rendered) : Prop where
  code : r.code.toList = header.toList ++ spliced edits 0 text.toList ++ footer.toList
  increasing : r.map.mappings.Pairwise fun a b =>
    a.generated < b.generated ∧ a.origin < b.origin
  faithful : ∀ m ∈ r.map.mappings, m.Faithful text.toList edits header.toList r.code.toList
  lines : ∀ front c back, text.toList = front ++ c :: back → c ≠ '\n' → LineStart front →
    edits.any (covers (byteLength front)) = false →
    ∃ m ∈ r.map.mappings, m.origin = ⟨front.count '\n', 0⟩ ∧
      m.generated = .behind (header.toList ++ spliced edits 0 front) ∧
      ∃ back', r.code.toList = header.toList ++ spliced edits 0 front ++ c :: back'

/-- A character that no edit covers stands in the output. -/
theorem Edit.spliced_of_uncovered
    {edits : List Edit}
    {front : List Char}
    (huncovered : edits.any (covers (byteLength front)) = false)
    (c : Char)
    (back : List Char) :
    ∃ back', spliced edits 0 (front ++ c :: back) = spliced edits 0 front ++ c :: back' := by
  refine ⟨spliced edits (byteLength front + c.utf8Size) back, ?_⟩
  rw [spliced_append_cons, Nat.zero_add, inPlace_of_uncovered huncovered]
  simp

namespace Edit.Applicable

variable {text : List Char} {edits : List Edit}

/-- A replacement stands in the output. -/
theorem spliced_of_replaced
    {front source : List Char}
    {e : Edit}
    (h : Applicable text edits)
    (he : e ∈ edits)
    (hstart : e.span.start = byteLength front)
    (hstop : e.span.stop = byteLength (front ++ source))
    (hsource : source ≠ [])
    (back : List Char) :
    ∃ back', spliced edits 0 (front ++ (source ++ back)) =
      spliced edits 0 front ++ (e.text.toList ++ back') := by
  cases source with
  | nil => exact absurd rfl hsource
  | cons c source =>
      have hpos := c.utf8Size_pos
      rw [byteLength_append, byteLength_cons] at hstop
      have hcovers : covers (byteLength front) e = true := covers_iff.mpr (by omega)
      have hfrom : replacesFrom (byteLength front) e = true := replacesFrom_iff.mpr (by omega)
      have hcovered : edits.any (covers (byteLength front)) = true :=
        List.any_eq_true.mpr ⟨e, he, hcovers⟩
      refine ⟨spliced edits (byteLength front + c.utf8Size) (source ++ back), ?_⟩
      rw [List.cons_append, spliced_append_cons, Nat.zero_add, inPlace_of_covered hcovered,
        h.filter_replacesFrom he hfrom]
      simp

/-- A mapping of a replacement leads to where it stands. -/
theorem replaced_at
    {m : Mapping}
    {e : Edit}
    (h : Applicable text edits)
    (header footer : List Char)
    (hm : Mapping.OfReplaced (Edit.sort edits) 0 text (.behind header) ⟨0, 0⟩ m e) :
    e ∈ edits ∧ ∃ front source back back', text = front ++ (source ++ back) ∧
      e.span = ⟨byteLength front, byteLength (front ++ source)⟩ ∧ source ≠ [] ∧ e.text ≠ "" ∧
      header ++ spliced edits 0 text ++ footer =
        header ++ spliced edits 0 front ++ (e.text.toList ++ back') ∧
      m = ⟨.behind (header ++ spliced edits 0 front), .behind front,
        if e.named then some (String.ofList source) else none⟩ := by
  obtain ⟨he, front, source, behind, rfl, hstart, hstop, hsource, hfilled, rfl⟩ := hm
  have he' : e ∈ edits := (perm_sort edits).mem_iff.mp he
  rw [Nat.zero_add] at hstart
  rw [hstart, ← byteLength_append] at hstop
  obtain ⟨back', hback'⟩ := h.spliced_of_replaced he' hstart hstop hsource behind
  refine ⟨he', front, source, behind, back' ++ footer, rfl, ?_, hsource, hfilled, ?_, ?_⟩
  · rw [← hstart, ← hstop]
  · simp [hback']
  · rw [h.spliced_sort, Place.advance_behind, Place.advance_zero]

/-- Each mapping of the sorted edits is faithful. -/
theorem faithful_of_mem
    {m : Mapping}
    (h : Applicable text edits)
    (header footer : List Char)
    (hm : m ∈ Mapping.ofPieces (.behind header) ⟨0, 0⟩ (Piece.cut 0 text (Edit.sort edits))) :
    m.Faithful text edits header (header ++ spliced edits 0 text ++ footer) := by
  rcases h.cuts.mem_ofPieces hm with hkept | ⟨e, hreplaced⟩
  · obtain ⟨front, c, back, rfl, huncovered, rfl⟩ := hkept
    rw [(perm_sort edits).any_eq, Nat.zero_add] at huncovered
    obtain ⟨back', hback'⟩ := spliced_of_uncovered huncovered c back
    refine .kept front c back (back' ++ footer) rfl huncovered ?_ ?_ (Place.advance_zero front) rfl
    · simp [hback']
    · rw [h.spliced_sort, Place.advance_behind]
  · obtain ⟨he, front, source, back, back', htext, hspan, hsource, hfilled, hcode, rfl⟩ :=
      h.replaced_at header footer hreplaced
    exact .replaced e he front source back back' htext hspan hsource hfilled hcode rfl rfl rfl

end Edit.Applicable

namespace Rendered

/-- The text that pieces make up between a header and a footer, with the source map that is written
for it. -/
def ofPieces
    (text header footer source : String)
    (file : Option String)
    (pieces : List Piece) :
    Rendered :=
  ⟨header ++ String.ofList (pieces.flatMap Piece.output) ++ footer,
    ⟨file, source, text, Mapping.ofPieces (.behind header.toList) ⟨0, 0⟩ pieces⟩⟩

/-- Rendering fails only where the edits overlap: the source map that is written for the pieces is
always read back, and as it was written. -/
theorem ofEdits_eq
    (text : String)
    (edits : List Edit)
    (header footer source : String)
    (file : Option String) :
    ofEdits text edits header footer source file =
      (editPieces text edits).map (ofPieces text header footer source file) := by
  unfold ofEdits
  cases editPieces text edits with
  | error e => rfl
  | ok pieces =>
      have hread := SourceMap.ofJson?_json ⟨file, source, text, _⟩
        (Mapping.pairwise_line_ofPieces (.behind header.toList) ⟨0, 0⟩ pieces)
      simp only [bind, Except.bind, Place.advance_zero, hread]
      rfl

/-- What rendering gives for edits that do not overlap. -/
theorem ofEdits_eq_ok
    {text : String}
    {edits : List Edit}
    (h : Edit.Applicable text.toList edits)
    (header footer source : String)
    (file : Option String) :
    ofEdits text edits header footer source file =
      .ok ⟨header ++ String.ofList (spliced edits 0 text.toList) ++ footer,
        ⟨file, source, text, Mapping.ofPieces (.behind header.toList) ⟨0, 0⟩
          (Piece.cut 0 text.toList (Edit.sort edits))⟩⟩ := by
  rw [ofEdits_eq, editPieces_of_applicable h, Except.map, ofPieces, h.output_cut]

end Rendered

/-- Rendering edits that do not overlap succeeds, and the source map is faithful. -/
theorem Rendered.ofEdits_faithful
    (text : String)
    (edits : List Edit)
    (h : Edit.Applicable text.toList edits)
    (header footer source : String)
    (file : Option String) :
    ∃ r, Rendered.ofEdits text edits header footer source file = .ok r ∧
      r.Faithful text edits header footer := by
  refine ⟨_, Rendered.ofEdits_eq_ok h header footer source file, ?_, ?_, ?_, ?_⟩
  · simp
  · refine (Mapping.pairwise_ofPieces ?_).1
    intro replacement named hmem
    exact h.cuts.source_ne_nil hmem rfl
  · intro m hm
    have hfaithful := h.faithful_of_mem header.toList footer.toList hm
    simpa using hfaithful
  · intro front c back htext hc hline huncovered
    have huncovered' : (Edit.sort edits).any (covers (0 + byteLength front)) = false := by
      rw [(perm_sort edits).any_eq, Nat.zero_add, huncovered]
    obtain ⟨back', hback'⟩ := spliced_of_uncovered huncovered c back
    refine ⟨_, h.cuts.lineStart_mem_ofPieces htext hc hline huncovered', ?_, ?_,
      back' ++ footer.toList, ?_⟩
    · rw [Place.advance_zero, Place.behind_of_lineStart hline]
    · rw [h.spliced_sort, Place.advance_behind]
    · simp [htext, hback']

/-- A character of two UTF-16 units, a replacement of two lines, an insertion at the beginning of
a line and a removal, recorded out of order. -/
theorem Rendered.ofEdits_faithful_twoLines :
    let text := "a😀 b\nc d\n"
    let edits := [.insert 8 "// ", .rename ⟨6, 7⟩ "x\ny", .remove ⟨9, 11⟩]
    Edit.Applicable text.toList edits ∧
      ∃ r, Rendered.ofEdits text edits "h\n" "f" "in.js" none = .ok r ∧
        r.Faithful text edits "h\n" "f" := by
  intro text edits
  have hboundary : ∀ front back : List Char, text.toList = front ++ back →
      Boundary text.toList (byteLength front) :=
    fun front back htext => ⟨front, back, htext, rfl⟩
  have happlicable : Edit.Applicable text.toList edits := by
    refine ⟨by decide, ?_, ?_⟩
    · intro e he
      simp only [edits, List.mem_cons, List.not_mem_nil, or_false] at he
      rcases he with rfl | rfl | rfl
      · exact ⟨hboundary "a😀 b\n".toList "c d\n".toList (by decide),
          hboundary "a😀 b\n".toList "c d\n".toList (by decide)⟩
      · exact ⟨hboundary "a😀 ".toList "b\nc d\n".toList (by decide),
          hboundary "a😀 b".toList "\nc d\n".toList (by decide)⟩
      · exact ⟨hboundary "a😀 b\nc".toList " d\n".toList (by decide),
          hboundary "a😀 b\nc d".toList "\n".toList (by decide)⟩
    · unfold Span.Apart
      decide
  exact ⟨happlicable, Rendered.ofEdits_faithful text edits happlicable "h\n" "f" "in.js" none⟩

/-- The source map of a rendered text says what it is made of: its JSON, read by the rules of the
format, gives the source, the content of it, and tokens that lead to the mappings in order. -/
theorem Rendered.read_map_json
    {text : String}
    {edits : List Edit}
    {header footer source : String}
    {file : Option String}
    {r : Rendered}
    (h : Rendered.ofEdits text edits header footer source file = .ok r) :
    ∃ d, SourceMap.Document.read? r.map.json = some d ∧
      d.file = file ∧ d.sources = [source] ∧ d.contents = [some text] ∧
      d.tokens.map d.resolve? = r.map.mappings.map fun m => some (source, m) := by
  rw [ofEdits_eq] at h
  cases hpieces : editPieces text edits with
  | error e => simp [hpieces, Except.map] at h
  | ok pieces =>
      simp only [hpieces, Except.map, Except.ok.injEq] at h
      subst h
      refine ⟨_, SourceMap.read?_json _ (Mapping.pairwise_line_ofPieces _ _ pieces),
        rfl, rfl, rfl, ?_⟩
      rw [SourceMap.document, List.map_map]
      exact List.map_congr_left fun m hm => SourceMap.resolve?_token hm

/-- A string that is escaped, lines with nothing on them, and columns and names that go back. -/
theorem Rendered.read_map_json_emptyLines :
    let text := "  s = \"\\é\";\n\n\n  y;\ns"
    let edits := [.rename ⟨2, 3⟩ "e.s", .rename ⟨17, 18⟩ "m.y", .rename ⟨20, 21⟩ "e.s"]
    let mappings := [⟨⟨1, 0⟩, ⟨0, 0⟩, none⟩, ⟨⟨1, 2⟩, ⟨0, 2⟩, some "s"⟩, ⟨⟨1, 5⟩, ⟨0, 3⟩, none⟩,
      ⟨⟨4, 0⟩, ⟨3, 0⟩, none⟩, ⟨⟨4, 2⟩, ⟨3, 2⟩, some "y"⟩, ⟨⟨4, 5⟩, ⟨3, 3⟩, none⟩,
      ⟨⟨5, 0⟩, ⟨4, 0⟩, some "s"⟩]
    ∃ r, Rendered.ofEdits text edits "h\n" "f" "in.js" (some "out.js") = .ok r ∧
      r.map.mappings = mappings ∧
      ∃ d, SourceMap.Document.read? r.map.json = some d ∧
        d.file = some "out.js" ∧ d.sources = ["in.js"] ∧ d.contents = [some text] ∧
        d.tokens.map d.resolve? = mappings.map fun m => some ("in.js", m) := by
  intro text edits mappings
  have hok : Rendered.ofEdits text edits "h\n" "f" "in.js" (some "out.js") =
      .ok ⟨"h\n  e.s = \"\\é\";\n\n\n  m.y;\ne.sf", some "out.js", "in.js", text, mappings⟩ := by
    rw [Rendered.ofEdits_eq]
    decide +kernel
  exact ⟨_, hok, rfl, Rendered.read_map_json hok⟩

end EsModules
