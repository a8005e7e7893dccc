import EsModules.Proofs.Syntax.Lexer

/-!
# Gaps

White space and comments before a token.  `GapTo` says that nothing else lies between two bytes of a
text; a gap is passed once, and its rest is a gap again.
-/

namespace EsModules
namespace Syntax

open Text

theorem skipGap_line
    {c : Char}
    (hline : isLineTerminator c = true)
    (newline : Bool)
    (offset : Nat)
    (rest : List Char) :
    skipGap .space newline offset (c :: rest) = skipGap .space true (offset + c.utf8Size) rest := by
  have hslash : c ≠ '/' := by
    rintro rfl
    exact absurd hline (by decide)
  rw [skipGap]
  · rw [if_pos hline]
  · exact fun _ h _ => hslash h
  · exact fun _ h _ => hslash h

/-- A gap lies between two bytes of a text, and something else behind it. -/
def GapTo (text : List Char) (lo hi : Nat) : Prop :=
  ∃ front gap rest found,
    text = front ++ gap ++ rest ∧ byteLength front = lo ∧ byteLength (front ++ gap) = hi ∧
    skipGap .space false lo (gap ++ rest) = some (found, ⟨hi, rest⟩)

theorem gapTo_of_read
    {text front rest : List Char}
    {limit lo : Nat}
    {t : Token}
    {behind : Cursor}
    (htext : text = front ++ rest)
    (hlen : byteLength front = lo)
    (hread : Token.read limit ⟨lo, rest⟩ = some (t, behind)) :
    GapTo text lo t.span.start := by
  unfold Token.read at hread
  simp only [Option.bind_eq_bind, Option.bind_eq_some_iff] at hread
  obtain ⟨⟨found, here⟩, hskip, hhere⟩ := hread
  obtain ⟨gap, hgap, hoffset⟩ := passes_skipGap hskip
  simp only at hgap hoffset
  have hstart := (Token.covers_readHere hhere).start
  refine ⟨front, gap, here.rest, found, ?_, hlen, ?_, ?_⟩
  · rw [htext, hgap, List.append_assoc]
  · rw [byteLength_append, hlen, hstart, hoffset]
  · rw [← hgap, hskip, hstart]

theorem GapTo.boundary {text : List Char} {lo hi : Nat} (h : GapTo text lo hi) :
    Boundary text lo ∧ Boundary text hi := by
  obtain ⟨front, gap, rest, found, htext, hlo, hhi, -⟩ := h
  refine ⟨⟨front, gap ++ rest, ?_, hlo⟩, front ++ gap, rest, htext, hhi⟩
  rw [htext, List.append_assoc]

/-- A gap is passed once. -/
theorem skipGap_again
    {part : GapPart}
    {newline found : Bool}
    {offset : Nat}
    {cs : List Char}
    {here : Cursor}
    (h : skipGap part newline offset cs = some (found, here)) :
    skipGap .space false here.offset here.rest = some (false, here) := by
  fun_induction skipGap part newline offset cs with
  | case1 newline offset rest ih => exact ih h
  | case2 newline offset rest ih => exact ih h
  | case3 newline offset c rest _ _ hline ih => exact ih h
  | case4 newline offset c rest _ _ hline hspace ih => exact ih h
  | case5 newline offset c rest hcomment hcomment' hline hspace =>
      cases h
      rw [skipGap, if_neg hline, if_neg hspace]
      · exact hcomment
      · exact hcomment'
  | case6 newline offset c rest hline ih => exact ih h
  | case7 newline offset c rest hline ih => exact ih h
  | case8 newline offset rest ih => exact ih h
  | case9 newline offset c rest hopen ih => exact ih h
  | case10 => cases h
  | case11 part newline offset =>
      cases h
      rfl

theorem GapTo.self {text : List Char} {lo hi : Nat} (h : GapTo text lo hi) : GapTo text hi hi := by
  obtain ⟨front, gap, rest, found, htext, hlo, hhi, hskip⟩ := h
  exact ⟨front ++ gap, [], rest, false, by simpa using htext, hhi, by simpa using hhi,
    skipGap_again hskip⟩

theorem GapTo.unique
    {text : List Char}
    {lo hi hi' : Nat}
    (h : GapTo text lo hi)
    (h' : GapTo text lo hi') :
    hi = hi' := by
  obtain ⟨front, gap, rest, found, htext, hlo, -, hskip⟩ := h
  obtain ⟨front', gap', rest', found', htext', hlo', -, hskip'⟩ := h'
  rw [List.append_assoc] at htext htext'
  obtain ⟨-, hrest⟩ := append_inj_of_byteLength (htext.symm.trans htext') (hlo.trans hlo'.symm)
  rw [← hrest, hskip] at hskip'
  cases hskip'
  rfl

theorem GapTo.le {text : List Char} {lo hi : Nat} (h : GapTo text lo hi) : lo ≤ hi := by
  obtain ⟨front, gap, rest, found, -, hlo, hhi, -⟩ := h
  rw [byteLength_append] at hhi
  omega

/-- A gap before something else is passed in the same way at any place and before anything. -/
theorem exists_skipped
    {part : GapPart}
    {newline found : Bool}
    {offset : Nat}
    {cs : List Char}
    {here : Cursor}
    (h : skipGap part newline offset cs = some (found, here))
    (hrest : here.rest ≠ []) :
    ∃ gap, cs = gap ++ here.rest ∧ (part = .blockComment → gap ≠ []) ∧
      ∀ begin other, skipGap part newline begin (gap ++ other) =
        skipGap .space found (begin + byteLength gap) other := by
  have htwo : ∀ {c d : Char} (begin : Nat) (gap : List Char), c.utf8Size = 1 → d.utf8Size = 1 →
      begin + byteLength (c :: d :: gap) = begin + 2 + byteLength gap := by
    intro c d begin gap hc hd
    simp only [byteLength_cons, hc, hd]
    omega
  fun_induction skipGap part newline offset cs with
  | case1 newline offset rest ih =>
      obtain ⟨gap, rfl, -, hall⟩ := ih h
      refine ⟨'/' :: '/' :: gap, rfl, by simp, fun begin other => ?_⟩
      rw [htwo _ _ rfl rfl, ← hall]
      rfl
  | case2 newline offset rest ih =>
      obtain ⟨gap, rfl, -, hall⟩ := ih h
      refine ⟨'/' :: '*' :: gap, rfl, by simp, fun begin other => ?_⟩
      rw [htwo _ _ rfl rfl, ← hall]
      rfl
  | case3 newline offset c rest _ _ hline ih =>
      obtain ⟨gap, rfl, -, hall⟩ := ih h
      refine ⟨c :: gap, rfl, by simp, fun begin other => ?_⟩
      rw [byteLength_cons, ← Nat.add_assoc, ← hall, List.cons_append, skipGap_line hline]
  | case4 newline offset c rest _ _ hline hspace ih =>
      obtain ⟨gap, rfl, -, hall⟩ := ih h
      refine ⟨c :: gap, rfl, by simp, fun begin other => ?_⟩
      have hslash : c ≠ '/' := by
        rintro rfl
        exact absurd hspace (by decide)
      rw [byteLength_cons, ← Nat.add_assoc, ← hall, List.cons_append, skipGap, if_neg hline,
        if_pos hspace]
      · exact fun _ h _ => hslash h
      · exact fun _ h _ => hslash h
  | case5 newline offset c rest hcomment hcomment' hline hspace =>
      cases h
      exact ⟨[], rfl, by simp, fun _ _ => rfl⟩
  | case6 newline offset c rest hline ih =>
      obtain ⟨gap, rfl, -, hall⟩ := ih h
      refine ⟨c :: gap, rfl, by simp, fun begin other => ?_⟩
      rw [byteLength_cons, ← Nat.add_assoc, ← hall, List.cons_append, skipGap, if_pos hline]
  | case7 newline offset c rest hline ih =>
      obtain ⟨gap, rfl, -, hall⟩ := ih h
      refine ⟨c :: gap, rfl, by simp, fun begin other => ?_⟩
      rw [byteLength_cons, ← Nat.add_assoc, ← hall, List.cons_append, skipGap, if_neg hline]
  | case8 newline offset rest ih =>
      obtain ⟨gap, rfl, -, hall⟩ := ih h
      refine ⟨'*' :: '/' :: gap, rfl, by simp, fun begin other => ?_⟩
      rw [htwo _ _ rfl rfl, ← hall]
      rfl
  | case9 newline offset c rest hopen ih =>
      obtain ⟨gap, rfl, hfilled, hall⟩ := ih h
      refine ⟨c :: gap, rfl, by simp, fun begin other => ?_⟩
      rw [byteLength_cons, ← Nat.add_assoc, ← hall, List.cons_append, skipGap]
      -- the comment is not closed here, whatever comes behind the gap
      intro rest hc hgap
      obtain ⟨d, gap, rfl⟩ := List.exists_cons_of_ne_nil (hfilled rfl)
      obtain ⟨rfl, -⟩ := List.cons.inj hgap
      exact hopen _ hc rfl
  | case10 => cases h
  | case11 part newline offset =>
      cases h
      exact absurd rfl hrest

/-- A gap of a text that ends before a character, found in another text. -/
theorem GapTo.skipped
    {text front gap rest : List Char}
    {c : Char}
    {lo hi : Nat}
    (h : GapTo text lo hi)
    (htext : text = front ++ (gap ++ c :: rest))
    (hlo : byteLength front = lo)
    (hhi : byteLength (front ++ gap) = hi) :
    ∃ found, ∀ begin other, skipGap .space false begin (gap ++ other) =
      skipGap .space found (begin + byteLength gap) other := by
  obtain ⟨front', gap', rest', found, htext', hlo', hhi', hskip⟩ := h
  rw [List.append_assoc] at htext'
  obtain ⟨rfl, hrest⟩ := append_inj_of_byteLength (htext.symm.trans htext') (hlo.trans hlo'.symm)
  have hlength : byteLength gap = byteLength gap' := by
    rw [byteLength_append] at hhi hhi'
    omega
  obtain ⟨rfl, rfl⟩ := append_inj_of_byteLength hrest hlength
  obtain ⟨gap', hgap, -, hall⟩ := exists_skipped hskip (by simp)
  obtain rfl := List.append_cancel_right hgap
  exact ⟨found, hall⟩

end Syntax
end EsModules
