import EsModules.Format
import EsModules.Proofs.Syntax.Cursor

/-!
# String literals

Generated code holds names and paths as string literals.  Whatever a text contains, the literal that
is written for it is read as one token, which has the text as its value and ends where the literal
ends (`read_quote`).

`quoteChar` writes a character as itself or behind a backslash.  `QuotedChar` says of either form
what makes the lexer read the character back, and nothing else of `quoteChar` is used.
-/

namespace EsModules
namespace Syntax

open Text

/-! ### One character -/

/-- The form in which a character stands in a literal: as itself, where it does not end the literal
and begins no escape, or as an escape that denotes it. -/
inductive QuotedChar (mark c : Char) : List Char → Prop where
  | plain
      (hmark : c ≠ mark)
      (hline : isLineTerminator c = false)
      (hescape : c ≠ '\\') :
      QuotedChar mark c [c]
  | escaped
      {escape : List Char}
      (hmark : mark ≠ '\\')
      (hline : ∀ x ∈ escape, isLineTerminator x = false)
      (hdenotes :
        ∀ offset rest, stringEscape ⟨offset, escape ++ rest⟩ =
          some ([c.toNat], ⟨offset + byteLength escape, rest⟩)) :
      QuotedChar mark c ('\\' :: escape)

theorem mark_ne_backslash (style : QuoteStyle) : style.mark ≠ '\\' := by
  cases style <;> decide

/-- A separator of lines or paragraphs is written by the digits of its code. -/
theorem stringEscape_separator
    {last : Char}
    (h : last = '8' ∨ last = '9')
    (offset : Nat)
    (rest : List Char) :
    stringEscape ⟨offset, ['u', '2', '0', '2', last] ++ rest⟩ =
      some ([0x2020 + (last.toNat - '0'.toNat)], ⟨offset + 5, rest⟩) := by
  rcases h with rfl | rfl <;> rfl

theorem quotedChar_quoteChar (style : QuoteStyle) (c : Char) :
    QuotedChar style.mark c (quoteChar style.mark c) := by
  have hmark := mark_ne_backslash style
  by_cases hbackslash : c = '\\'
  · subst hbackslash
    exact .escaped hmark (by simp [isLineTerminator]) fun _ _ => rfl
  by_cases hfeed : c = '\n'
  · subst hfeed
    exact .escaped hmark (by simp [isLineTerminator]) fun _ _ => rfl
  by_cases hreturn : c = '\r'
  · subst hreturn
    exact .escaped hmark (by simp [isLineTerminator]) fun _ _ => rfl
  by_cases htab : c = '\t'
  · subst htab
    exact .escaped hmark (by simp [isLineTerminator]) fun _ _ => rfl
  by_cases hline : c = '\u2028'
  · subst hline
    exact .escaped hmark (by simp [isLineTerminator]) (stringEscape_separator (.inl rfl))
  by_cases hparagraph : c = '\u2029'
  · subst hparagraph
    exact .escaped hmark (by simp [isLineTerminator]) (stringEscape_separator (.inr rfl))
  by_cases hquote : c = style.mark
  · -- the quotation mark of the style stands for itself behind a backslash
    subst hquote
    cases style <;>
      exact .escaped (by decide) (by simp [QuoteStyle.mark, isLineTerminator]) fun _ _ => rfl
  · have hplain : quoteChar style.mark c = [c] := by
      simp [quoteChar, hbackslash, hfeed, hreturn, htab, hline, hparagraph, hquote]
    rw [hplain]
    refine .plain hquote ?_ hbackslash
    simp [isLineTerminator, hfeed, hreturn, hline, hparagraph]

theorem QuotedChar.length_pos
    {mark c : Char}
    {written : List Char}
    (h : QuotedChar mark c written) :
    0 < written.length := by
  cases h <;> simp

theorem QuotedChar.isLineTerminator_of_mem
    {mark c x : Char}
    {written : List Char}
    (h : QuotedChar mark c written)
    (hx : x ∈ written) :
    isLineTerminator x = false := by
  cases h with
  | plain _ hline _ => rwa [List.mem_singleton.mp hx]
  | escaped _ hline _ =>
      rcases List.mem_cons.mp hx with rfl | hx
      · decide
      · exact hline x hx

/-- One character of a literal is read, whichever form it has. -/
theorem QuotedChar.quotedCodes_append
    {mark c : Char}
    {written : List Char}
    (h : QuotedChar mark c written)
    (limit offset : Nat)
    (rest : List Char) :
    quotedCodes mark (limit + 1) ⟨offset, written ++ rest⟩ =
      (quotedCodes mark limit ⟨offset + byteLength written, rest⟩).map fun (codes, behind) =>
        (c.toNat :: codes, behind) := by
  cases h with
  | plain hmark hline hescape =>
      simp only [isLineTerminator, Bool.or_eq_false_iff, beq_eq_false_iff_ne] at hline
      simp only [List.singleton_append, quotedCodes, byteLength_cons, byteLength_nil, Nat.add_zero]
      simp only [beq_iff_eq, hmark, hline.1, hescape, Bool.or_eq_true, or_self, if_false]
      cases quotedCodes mark limit ⟨offset + c.utf8Size, rest⟩ <;> rfl
  | @escaped escape hmark _ hdenotes =>
      have hquote : ('\\' == mark) = false := by simpa using hmark.symm
      have hplace : offset + 1 + byteLength escape = offset + byteLength ('\\' :: escape) :=
        Nat.add_assoc _ _ _
      rw [List.cons_append, quotedCodes, hquote, hdenotes, hplace]
      change (quotedCodes mark limit ⟨offset + byteLength ('\\' :: escape), rest⟩).bind _ = _
      cases quotedCodes mark limit ⟨offset + byteLength ('\\' :: escape), rest⟩ <;> rfl

/-! ### Whole literals -/

/-- The characters of a literal are read up to its closing mark. -/
theorem quotedCodes_quoteChars
    (style : QuoteStyle)
    {cs : List Char}
    {limit : Nat}
    (hlimit : cs.length < limit)
    (offset : Nat)
    (rest : List Char) :
    quotedCodes style.mark limit
        ⟨offset, cs.flatMap (quoteChar style.mark) ++ style.mark :: rest⟩ =
      some (cs.map Char.toNat,
        ⟨offset + byteLength (cs.flatMap (quoteChar style.mark)) + 1, rest⟩) := by
  induction cs generalizing limit offset with
  | nil =>
      obtain ⟨limit, rfl⟩ := Nat.exists_eq_add_one_of_ne_zero (Nat.ne_of_gt hlimit)
      simp [quotedCodes]
  | cons c cs ih =>
      have hpos := Nat.zero_lt_of_lt hlimit
      obtain ⟨limit, rfl⟩ := Nat.exists_eq_add_one_of_ne_zero (Nat.ne_of_gt hpos)
      rw [List.flatMap_cons, List.append_assoc,
        (quotedChar_quoteChar style c).quotedCodes_append,
        ih (Nat.lt_of_succ_lt_succ hlimit)]
      simp [Nat.add_assoc]

/-- No character is half of a surrogate pair. -/
theorem isSurrogate_toNat (c : Char) : isSurrogate c.toNat = false := by
  have hvalid : c.toNat.isValidChar := c.valid
  simp only [isSurrogate, Bool.and_eq_false_iff, decide_eq_false_iff_not]
  rcases hvalid with h | h <;> omega

theorem any_isSurrogate_toNat (cs : List Char) : (cs.map Char.toNat).any isSurrogate = false := by
  simp [isSurrogate_toNat]

/-- The codes of characters spell them. -/
theorem spell_toNat (text : String) : spell (text.toList.map Char.toNat) = text := by
  rw [spell, any_isSurrogate_toNat]
  simp [Function.comp_def]

/-- No character is left out of a literal. -/
theorem length_le_quoteChars (style : QuoteStyle) (cs : List Char) :
    cs.length ≤ (cs.flatMap (quoteChar style.mark)).length := by
  induction cs with
  | nil => simp
  | cons c cs ih =>
      have hpos := (quotedChar_quoteChar style c).length_pos
      rw [List.flatMap_cons, List.length_append, List.length_cons]
      omega

/-- A quotation mark begins a token, which is a string. -/
theorem read_mark (style : QuoteStyle) (limit offset : Nat) (cs : List Char) :
    Token.read limit ⟨offset, style.mark :: cs⟩ =
      (quotedCodes style.mark limit ⟨offset + 1, cs⟩).map fun (codes, behind) =>
        (⟨.string, ⟨offset, behind.offset⟩, spell codes, false, codes.any isSurrogate⟩,
          behind) := by
  have hgap : skipGap .space false offset (style.mark :: cs) =
      some (false, ⟨offset, style.mark :: cs⟩) := by
    cases style <;> rfl
  have hhere : Token.readHere limit false ⟨offset, style.mark :: cs⟩ =
      (quotedCodes style.mark limit ⟨offset + 1, cs⟩).bind fun (codes, behind) =>
        some (⟨.string, ⟨offset, behind.offset⟩, spell codes, false, codes.any isSurrogate⟩,
          behind) := by
    cases style <;> rfl
  rw [Token.read, hgap]
  change Token.readHere limit false ⟨offset, style.mark :: cs⟩ = _
  rw [hhere]
  cases quotedCodes style.mark limit ⟨offset + 1, cs⟩ <;> rfl

/-- A string literal stands on one line. -/
theorem isLineTerminator_of_mem_quote
    {style : QuoteStyle}
    {value : String}
    {x : Char}
    (hx : x ∈ (Text.quote style value).toList) :
    isLineTerminator x = false := by
  have hmark : isLineTerminator style.mark = false := by
    cases style <;> decide
  simp only [Text.quote, String.toList_ofList, List.cons_append, List.mem_cons, List.mem_append,
    List.mem_flatMap, List.not_mem_nil, or_false] at hx
  rcases hx with rfl | ⟨c, -, hx⟩ | rfl
  · exact hmark
  · exact (quotedChar_quoteChar style c).isLineTerminator_of_mem hx
  · exact hmark

/-- A text that is written as a string literal, wherever it stands and whatever follows it, is read
as one token: its value is the text, and reading goes on right behind the literal.  The literal
stands on one line. -/
theorem read_quote (format : FormatOptions) (value : String) (front rest : List Char) :
    (∀ c ∈ (format.quote value).toList, isLineTerminator c = false) ∧
      Token.read ((front ++ (format.quote value).toList ++ rest).length + 2)
          ⟨byteLength front, (format.quote value).toList ++ rest⟩ =
        some
          (⟨.string,
            ⟨byteLength front, byteLength (front ++ (format.quote value).toList)⟩,
            value, false, false⟩,
            ⟨byteLength (front ++ (format.quote value).toList), rest⟩) := by
  have hliteral : (format.quote value).toList =
      format.quoteStyle.mark ::
        (value.toList.flatMap (quoteChar format.quoteStyle.mark) ++ [format.quoteStyle.mark]) := by
    simp [FormatOptions.quote, Text.quote]
  have hsize : format.quoteStyle.mark.utf8Size = 1 := by
    cases format.quoteStyle <;> rfl
  have hplace : byteLength front + 1 +
      byteLength (value.toList.flatMap (quoteChar format.quoteStyle.mark)) + 1 =
        byteLength (front ++ (format.quote value).toList) := by
    rw [hliteral]
    simp only [byteLength_append, byteLength_cons, byteLength_nil, hsize]
    omega
  have hlimit :
      value.toList.length < (front ++ (format.quote value).toList ++ rest).length + 2 := by
    have hle := length_le_quoteChars format.quoteStyle value.toList
    rw [hliteral]
    simp only [List.length_append, List.length_cons]
    omega
  have hread := quotedCodes_quoteChars format.quoteStyle hlimit (byteLength front + 1) rest
  rw [hplace] at hread
  have hstart : (format.quote value).toList ++ rest =
      format.quoteStyle.mark :: (value.toList.flatMap (quoteChar format.quoteStyle.mark) ++
        format.quoteStyle.mark :: rest) := by
    simp [hliteral]
  refine ⟨fun c hc => isLineTerminator_of_mem_quote hc, ?_⟩
  rw [hstart, read_mark, hread]
  simp only [Option.map_some, spell_toNat, any_isSurrogate_toNat]

end Syntax
end EsModules
