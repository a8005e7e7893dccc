import EsModules.Proofs.Syntax.Cursor

/-!
# Places of tokens

Each reading function of the lexer moves its cursor over characters of the text, so a token that
is read covers whole characters and lies behind the place where reading began.  Only strings and
templates go over lines, and no token has a line terminator at its end.
-/

namespace EsModules
namespace Syntax

open Text

/-! ### Gaps -/

theorem passes_skipGap
    {part : GapPart}
    {newline found : Bool}
    {offset : Nat}
    {rest : List Char}
    {here : Cursor}
    (h : skipGap part newline offset rest = some (found, here)) :
    (⟨offset, rest⟩ : Cursor).Passes here := by
  fun_induction skipGap part newline offset rest with
  | case1 newline offset rest ih =>
      exact (Cursor.Passes.char.trans Cursor.Passes.char).trans (ih h)
  | case2 newline offset rest ih =>
      exact (Cursor.Passes.char.trans Cursor.Passes.char).trans (ih h)
  | case3 newline offset c rest _ _ hline ih => exact Cursor.Passes.char.trans (ih h)
  | case4 newline offset c rest _ _ hline hspace ih => exact Cursor.Passes.char.trans (ih h)
  | case5 newline offset c rest _ _ hline hspace =>
      cases h
      exact Cursor.Passes.refl _
  | case6 newline offset c rest hline ih => exact Cursor.Passes.char.trans (ih h)
  | case7 newline offset c rest hline ih => exact Cursor.Passes.char.trans (ih h)
  | case8 newline offset rest ih =>
      exact (Cursor.Passes.char.trans Cursor.Passes.char).trans (ih h)
  | case9 newline offset c rest _ ih => exact Cursor.Passes.char.trans (ih h)
  | case10 => cases h
  | case11 part newline offset =>
      cases h
      exact Cursor.Passes.refl _

theorem passes_lineEnd (offset : Nat) (rest : List Char) :
    (⟨offset, rest⟩ : Cursor).Passes (lineEnd offset rest) := by
  fun_induction lineEnd offset rest with
  | case1 offset => exact Cursor.Passes.refl _
  | case2 offset c rest hline => exact Cursor.Passes.refl _
  | case3 offset c rest hline ih => exact Cursor.Passes.char.trans ih

/-! ### Escapes -/

theorem plain_of_le {c d : Char} (hlo : '!' ≤ c) (h : c ≤ d) (hd : d.val ≤ 127) : Plain c := by
  refine ⟨?_, ?_⟩
  · rw [Char.utf8Size_eq_one_iff]
    exact UInt32.le_trans h hd
  · rw [Bool.eq_false_iff]
    intro hline
    have hle := UInt32.le_trans h hd
    simp only [isLineTerminator, Bool.or_eq_true, beq_iff_eq] at hline
    rcases hline with ((rfl | rfl) | rfl) | rfl
    · exact absurd hlo (by decide)
    · exact absurd hlo (by decide)
    · exact absurd hle (by decide)
    · exact absurd hle (by decide)

theorem plain_of_isHexDigit {c : Char} (h : isHexDigit c = true) : Plain c := by
  have hrange : ∀ lo hi : Char, '!' ≤ lo → hi.val ≤ 127 →
      (decide (lo ≤ c) && decide (c ≤ hi)) = true → Plain c := by
    intro lo hi hlo hhi hc
    simp only [Bool.and_eq_true, decide_eq_true_eq] at hc
    exact plain_of_le (Char.le_trans hlo hc.1) hc.2 hhi
  unfold isHexDigit hexDigit? at h
  split at h
  · rename_i hc
    exact hrange _ _ (by decide) (by decide) hc
  · split at h
    · rename_i hc
      exact hrange _ _ (by decide) (by decide) hc
    · split at h
      · rename_i hc
        exact hrange _ _ (by decide) (by decide) hc
      · simp at h

theorem plain_of_isOctalDigit {c : Char} (h : isOctalDigit c = true) : Plain c := by
  unfold isOctalDigit at h
  simp only [Bool.and_eq_true, decide_eq_true_eq] at h
  exact plain_of_le (Char.le_trans (by decide) h.1) h.2 (by decide)

theorem plain_of_isDigit {c : Char} (h : c.isDigit = true) : Plain c := by
  simp only [Char.isDigit, Bool.and_eq_true, decide_eq_true_eq] at h
  exact plain_of_le (d := '9') (Char.le_trans (b := '0') (by decide) h.1) h.2 (by decide)

/-- A character of an identifier does not end a line. -/
theorem isLineTerminator_of_isIdentifierPart
    {c : Char}
    (h : isIdentifierPart c = true) :
    isLineTerminator c = false := by
  rw [Bool.eq_false_iff]
  intro hline
  simp only [isLineTerminator, Bool.or_eq_true, beq_iff_eq] at hline
  rcases hline with ((rfl | rfl) | rfl) | rfl <;> exact absurd h (by decide +kernel)

theorem isLineTerminator_of_isIdentifierStart
    {c : Char}
    (h : isIdentifierStart c = true) :
    isLineTerminator c = false := by
  rw [Bool.eq_false_iff]
  intro hline
  simp only [isLineTerminator, Bool.or_eq_true, beq_iff_eq] at hline
  rcases hline with ((rfl | rfl) | rfl) | rfl <;> exact absurd h (by decide +kernel)

theorem plain_of_all
    {p : Char → Bool}
    (hp : ∀ c, p c = true → Plain c)
    {cs : List Char}
    (h : cs.all p = true) :
    ∀ c ∈ cs, Plain c :=
  fun c hc => hp c (List.all_eq_true.mp h c hc)

theorem inline_fourHexDigits
    {cursor behind : Cursor}
    {code : Nat}
    (h : fourHexDigits cursor = some (code, behind)) :
    cursor.Inline behind := by
  unfold fourHexDigits at h
  simp only [Option.ite_none_right_eq_some, Option.some.injEq, Prod.mk.injEq, Bool.and_eq_true,
    beq_iff_eq] at h
  obtain ⟨⟨hlen, hall⟩, _, rfl⟩ := h
  have := Cursor.Inline.skip _ (List.take_append_drop 4 cursor.rest).symm
    (plain_of_all (fun _ => plain_of_isHexDigit) hall)
  rwa [hlen] at this

theorem inline_codePointEscape
    {cursor behind : Cursor}
    {code : Nat}
    (h : codePointEscape cursor = some (code, behind)) :
    cursor.Inline behind := by
  unfold codePointEscape at h
  split at h
  · rename_i rest hrest
    simp only [Option.ite_none_right_eq_some, Option.some.injEq, Prod.mk.injEq,
      Bool.and_eq_true, beq_iff_eq] at h
    obtain ⟨⟨⟨_, hclose⟩, _⟩, _, rfl⟩ := h
    -- an opening brace, the digits and a closing brace
    obtain ⟨back, hback⟩ := List.takeWhile_prefix isHexDigit (l := rest)
    have hdrop := @List.drop_left _ (rest.takeWhile isHexDigit) back
    rw [hback] at hdrop
    rw [hdrop] at hclose
    obtain ⟨tail, rfl⟩ := List.head?_eq_some_iff.mp hclose
    have hsplit : cursor.rest =
        ('\x7b' :: rest.takeWhile isHexDigit ++ ['\x7d']) ++ tail := by
      rw [hrest]
      simpa using hback.symm
    have hplain : ∀ c ∈ '\x7b' :: rest.takeWhile isHexDigit ++ ['\x7d'], Plain c := by
      intro c hc
      simp only [List.cons_append, List.mem_cons, List.mem_append, List.not_mem_nil, or_false]
        at hc
      rcases hc with rfl | hc | rfl
      · exact ⟨rfl, rfl⟩
      · exact plain_of_all (fun _ => plain_of_isHexDigit) List.all_takeWhile c hc
      · exact ⟨rfl, rfl⟩
    simpa using Cursor.Inline.skip _ hsplit hplain
  · exact inline_fourHexDigits h

theorem passes_stringUnicodeEscape
    {cursor behind : Cursor}
    {code : Nat}
    (h : stringUnicodeEscape cursor = some (code, behind)) :
    cursor.Passes behind := by
  unfold stringUnicodeEscape at h
  split at h
  · exact (inline_codePointEscape h).passes
  · rename_i high first hfirst
    have hpass := (inline_fourHexDigits hfirst).passes
    split at h
    · split at h
      · rename_i rest hrest
        split at h
        · rename_i low last hlow
          split at h
          · simp only [Option.some.injEq, Prod.mk.injEq] at h
            obtain ⟨_, rfl⟩ := h
            -- the second half of a surrogate pair stands behind a backslash and a letter
            have hmark : first.Passes (first.skip 2) :=
              Cursor.Passes.skip ['\\', 'u'] hrest
                (by intro c hc; simp at hc; rcases hc with rfl | rfl <;> rfl)
            exact (hpass.trans hmark).trans (inline_fourHexDigits hlow).passes
          · cases h
            exact hpass
        · cases h
          exact hpass
      · cases h
        exact hpass
    · cases h
      exact hpass

theorem passes_octalDigits (cursor : Cursor) :
    cursor.Passes (cursor.skip (octalDigits cursor.rest).length) := by
  have hprefix : octalDigits cursor.rest <+: cursor.rest := by
    unfold octalDigits
    split
    · rename_i c rest hrest
      exact (List.takeWhile_prefix _).trans (by rw [hrest]; exact List.take_prefix _ _)
    · exact List.nil_prefix
  have hascii : IsAscii (octalDigits cursor.rest) := by
    unfold octalDigits
    split
    · exact fun c hc => (plain_of_all (fun _ => plain_of_isOctalDigit) List.all_takeWhile c hc).size
    · intro c hc
      simp at hc
  obtain ⟨back, hback⟩ := hprefix
  exact Cursor.Passes.skip _ hback.symm hascii

theorem passes_stringEscape
    {cursor behind : Cursor}
    {codes : List Nat}
    (h : stringEscape cursor = some (codes, behind)) :
    cursor.Passes behind := by
  unfold stringEscape at h
  split at h
  · cases h
  · rename_i rest hrest
    cases h
    exact Cursor.Passes.skip ['\r', '\n'] hrest
      (by intro c hc; simp at hc; rcases hc with rfl | rfl <;> rfl)
  iterate 6
    rename_i rest hrest
    cases h
    exact Cursor.Passes.skip [_] hrest (by intro c hc; simp at hc; subst hc; rfl)
  · rename_i rest hrest
    simp only [Option.ite_none_right_eq_some, Option.some.injEq, Prod.mk.injEq,
      Bool.and_eq_true, beq_iff_eq] at h
    obtain ⟨⟨hlen, hall⟩, _, rfl⟩ := h
    have hfront : cursor.rest = ('x' :: rest.take 2) ++ rest.drop 2 := by
      rw [hrest]
      simp
    have hascii : IsAscii ('x' :: rest.take 2) := by
      intro c hc
      rcases List.mem_cons.mp hc with rfl | hc
      · rfl
      · exact (plain_of_all (fun _ => plain_of_isHexDigit) hall c hc).size
    have := Cursor.Passes.skip _ hfront hascii
    rwa [List.length_cons, hlen] at this
  · rename_i rest hrest
    simp only [Option.map_eq_some_iff, Prod.mk.injEq] at h
    obtain ⟨⟨code, last⟩, hcode, _, rfl⟩ := h
    have hmark : cursor.Passes (cursor.skip 1) :=
      Cursor.Passes.skip ['u'] hrest (by intro c hc; simp at hc; subst hc; rfl)
    exact hmark.trans (passes_stringUnicodeEscape hcode)
  · rename_i c rest _ _ _ _ _ _ _ _ _ hrest
    have hchar : cursor.Passes ⟨cursor.offset + c.utf8Size, rest⟩ :=
      ⟨[c], by rw [hrest]; rfl, by simp⟩
    split at h
    · cases h
      exact hchar
    · split at h
      · cases h
        have := passes_octalDigits cursor
        rwa [hrest] at this
      · cases h
        exact hchar

/-! ### Literals and words -/

/-- A string ends with its quote. -/
theorem stops_quotedCodes
    {quote : Char}
    {limit : Nat}
    {cursor behind : Cursor}
    {codes : List Nat}
    (hquote : Plain quote)
    (h : quotedCodes quote limit cursor = some (codes, behind)) :
    cursor.Stops behind := by
  fun_induction quotedCodes quote limit cursor generalizing codes behind with
  | case1 => cases h
  | case2 => cases h
  | case3 limit offset c rest hc =>
      cases h
      obtain rfl : c = quote := by simpa using hc
      exact ⟨[], c, rfl, by simp [hquote.size], hquote.line⟩
  | case4 => cases h
  | case5 limit offset c rest _ _ hc ih =>
      simp only [Option.bind_eq_bind, Option.bind_eq_some_iff] at h
      obtain ⟨⟨first, middle⟩, hfirst, ⟨more, last⟩, hmore, h⟩ := h
      cases h
      obtain rfl : c = '\\' := by simpa using hc
      exact (Cursor.Passes.char.trans (passes_stringEscape hfirst)).stops (ih _ hmore)
  | case6 limit offset c rest _ _ _ ih =>
      simp only [Option.bind_eq_bind, Option.bind_eq_some_iff] at h
      obtain ⟨⟨more, last⟩, hmore, h⟩ := h
      cases h
      exact Cursor.Passes.char.stops (ih hmore)

/-- A stretch of a template ends with a mark of its own. -/
theorem stops_readTemplate
    {malformed : Bool}
    {offset : Nat}
    {rest : List Char}
    {stretch : TemplateEnd}
    (h : readTemplate malformed offset rest = some stretch) :
    (⟨offset, rest⟩ : Cursor).Stops stretch.behind := by
  fun_induction readTemplate malformed offset rest with
  | case1 malformed offset rest =>
      cases h
      exact .char rfl
  | case2 malformed offset rest =>
      cases h
      exact Cursor.Passes.char.stops (.char rfl)
  | case3 malformed offset c rest ih =>
      exact (Cursor.Passes.char.trans Cursor.Passes.char).stops (ih h)
  | case4 malformed offset c rest _ _ _ ih => exact Cursor.Passes.char.stops (ih h)
  | case5 => cases h

theorem inline_readRegexBody
    {inClass : Bool}
    {offset : Nat}
    {rest : List Char}
    {behind : Cursor}
    (h : readRegexBody inClass offset rest = some behind) :
    (⟨offset, rest⟩ : Cursor).Inline behind := by
  fun_induction readRegexBody inClass offset rest with
  | case1 => cases h
  | case2 => cases h
  | case3 inClass offset c rest hline ih =>
      exact ((Cursor.Inline.char rfl).trans (.char (Bool.eq_false_iff.mpr hline))).trans (ih h)
  | case4 => cases h
  | case5 inClass offset c rest _ _ hc =>
      cases h
      simp only [Bool.and_eq_true, beq_iff_eq] at hc
      obtain rfl := hc.1
      exact .char rfl
  | case6 inClass offset c rest _ hline _ ih =>
      exact (Cursor.Inline.char (Bool.eq_false_iff.mpr hline)).trans (ih h)

theorem inline_readRegex
    {cursor behind : Cursor}
    (h : readRegex cursor = some behind) :
    cursor.Inline behind := by
  unfold readRegex at h
  simp only [Option.bind_eq_bind, Option.bind_eq_some_iff, Option.ite_none_right_eq_some,
    Option.some.injEq, Bool.and_eq_true] at h
  obtain ⟨middle, hbody, ⟨hflags, _⟩, rfl⟩ := h
  refine (inline_readRegexBody hbody).trans ?_
  obtain ⟨back, hback⟩ := List.takeWhile_prefix
    (fun c : Char => c.isAlphanum || c == '$' || c == '_') (l := middle.rest)
  refine Cursor.Inline.skip _ hback.symm ?_
  intro c hc
  have hletter := List.all_eq_true.mp hflags c hc
  have hin : c ∈ "dgimsuvy".toList := by simpa using hletter
  have hall : "dgimsuvy".toList.all (fun c => c.utf8Size == 1 && !isLineTerminator c) = true := by
    decide
  simpa [plain_iff] using List.all_eq_true.mp hall c hin

namespace Word

theorem inline_readTail
    {limit : Nat}
    {cursor : Cursor}
    {w : Word}
    (h : readTail limit cursor = some w) :
    cursor.Inline w.behind := by
  fun_induction readTail limit cursor generalizing w with
  | case1 => cases h
  | case2 limit offset =>
      cases h
      exact Cursor.Inline.refl _
  | case3 limit offset c rest hpart ih =>
      simp only [Option.map_eq_some_iff] at h
      obtain ⟨w, hw, rfl⟩ := h
      have htail := ih hw
      exact (Cursor.Inline.char (isLineTerminator_of_isIdentifierPart hpart)).trans htail
  | case4 limit offset rest code behind hpart _ hescape ih =>
      simp only [hescape, hpart, if_true, Option.map_eq_some_iff] at h
      obtain ⟨w, hw, rfl⟩ := h
      have htail := ih hw
      exact (((Cursor.Inline.char rfl).trans (.char rfl)).trans
        (inline_codePointEscape hescape)).trans htail
  | case5 limit offset rest code behind hpart _ hescape =>
      rw [hescape] at h
      simp [hpart] at h
  | case6 limit offset rest _ hescape =>
      rw [hescape] at h
      cases h
  | case7 => cases h
  | case8 limit offset c rest =>
      cases h
      exact Cursor.Inline.refl _

/-- A word has at least one character. -/
theorem inline_read
    {limit : Nat}
    {cursor : Cursor}
    {w : Word}
    (h : read limit cursor = some w) :
    cursor.Inline w.behind ∧ cursor.offset < w.behind.offset := by
  unfold read at h
  split at h
  · rename_i rest hrest
    have hmark : cursor.Inline (cursor.skip 2) :=
      Cursor.Inline.skip ['\\', 'u'] hrest
        (by intro c hc; simp at hc; rcases hc with rfl | rfl <;> exact ⟨rfl, rfl⟩)
    split at h
    · rename_i code behind hescape
      split at h
      · simp only [Option.map_eq_some_iff] at h
        obtain ⟨w, hw, rfl⟩ := h
        have htail := (inline_codePointEscape hescape).trans (inline_readTail hw)
        refine ⟨hmark.trans htail, ?_⟩
        have hle := htail.passes.le
        have hskip : (cursor.skip 2).offset = cursor.offset + 2 := rfl
        show cursor.offset < w.behind.offset
        omega
      · cases h
    · cases h
  · rename_i c rest _ hrest
    split at h
    · rename_i hstart
      simp only [Option.map_eq_some_iff] at h
      obtain ⟨w, hw, rfl⟩ := h
      have htail := inline_readTail hw
      have hchar : cursor.Inline ⟨cursor.offset + c.utf8Size, rest⟩ :=
        ⟨[c], by rw [hrest]; rfl, by simp,
          by simpa using isLineTerminator_of_isIdentifierStart hstart⟩
      refine ⟨hchar.trans htail, ?_⟩
      have hle := htail.passes.le
      have hpos := c.utf8Size_pos
      show cursor.offset < w.behind.offset
      simp only at hle
      omega
    · cases h
  · cases h

end Word

/-! ### Numbers -/

namespace Numeric

/-- The first `n` characters exist and are plain. -/
def PlainFront (n : Nat) (cs : List Char) : Prop :=
  ∃ front back, cs = front ++ back ∧ front.length = n ∧ ∀ c ∈ front, Plain c

theorem PlainFront.zero (cs : List Char) : PlainFront 0 cs :=
  ⟨[], cs, rfl, rfl, by intro c hc; simp at hc⟩

theorem PlainFront.cons
    {c : Char}
    {n : Nat}
    {cs : List Char}
    (hc : Plain c)
    (h : PlainFront n cs) :
    PlainFront (n + 1) (c :: cs) := by
  obtain ⟨front, back, rfl, rfl, hplain⟩ := h
  refine ⟨c :: front, back, rfl, rfl, ?_⟩
  intro d hd
  rcases List.mem_cons.mp hd with rfl | hd
  · exact hc
  · exact hplain d hd

theorem PlainFront.add
    {m n : Nat}
    {cs : List Char}
    (h₁ : PlainFront m cs)
    (h₂ : PlainFront n (cs.drop m)) :
    PlainFront (m + n) cs := by
  obtain ⟨front₁, back₁, rfl, rfl, hplain₁⟩ := h₁
  rw [List.drop_left] at h₂
  obtain ⟨front₂, back₂, rfl, rfl, hplain₂⟩ := h₂
  refine ⟨front₁ ++ front₂, back₂, by simp, by simp, ?_⟩
  intro c hc
  rcases List.mem_append.mp hc with hc | hc
  · exact hplain₁ c hc
  · exact hplain₂ c hc

theorem plainFront_digitRun
    {p : Char → Bool}
    (hp : ∀ c, p c = true → Plain c)
    {cs : List Char}
    {n : Nat}
    (h : digitRun p cs = some n) :
    PlainFront n cs := by
  fun_induction digitRun p cs generalizing n with
  | case1 d rest hd ih =>
      simp only [Option.map_eq_some_iff] at h
      obtain ⟨m, hm, rfl⟩ := h
      exact .cons ⟨rfl, rfl⟩ (.cons (hp d hd) (ih hm))
  | case2 => cases h
  | case3 => cases h
  | case4 c rest _ _ hc ih =>
      simp only [Option.map_eq_some_iff] at h
      obtain ⟨m, hm, rfl⟩ := h
      exact .cons (hp c hc) (ih hm)
  | case5 =>
      cases h
      exact .zero _
  | case6 =>
      cases h
      exact .zero _

theorem plainFront_digits
    {p : Char → Bool}
    (hp : ∀ c, p c = true → Plain c)
    {cs : List Char}
    {n : Nat}
    (h : digits p cs = some n) :
    PlainFront n cs := by
  unfold digits at h
  split at h
  · split at h
    · exact plainFront_digitRun hp h
    · cases h
  · cases h

theorem plainFront_exponent
    {cs : List Char}
    {n : Nat}
    (h : exponent cs = some n) :
    PlainFront n cs := by
  unfold exponent at h
  split at h
  · rename_i e rest
    split at h
    · rename_i he
      have hplain : Plain e := by
        simp only [Bool.or_eq_true, beq_iff_eq] at he
        rcases he with rfl | rfl <;> exact ⟨rfl, rfl⟩
      split at h
      all_goals
        simp only [Option.map_eq_some_iff] at h
        obtain ⟨m, hm, rfl⟩ := h
      · exact .cons hplain (.cons ⟨rfl, rfl⟩ (plainFront_digits (fun _ => plain_of_isDigit) hm))
      · exact .cons hplain (.cons ⟨rfl, rfl⟩ (plainFront_digits (fun _ => plain_of_isDigit) hm))
      · exact .cons hplain (plainFront_digits (fun _ => plain_of_isDigit) hm)
    · cases h
      exact .zero _
  · cases h
    exact .zero _

theorem plainFront_fraction
    {cs : List Char}
    {n : Nat}
    (h : fraction cs = some n) :
    PlainFront n cs := by
  have hadd : ∀ {whole : Nat}, PlainFront whole cs →
      ((exponent (cs.drop whole)).bind fun power => some (whole + power)) = some n →
      PlainFront n cs := by
    intro whole hwhole hpower
    rw [Option.bind_eq_some_iff] at hpower
    obtain ⟨power, hpower, hsum⟩ := hpower
    cases hsum
    exact hwhole.add (plainFront_exponent hpower)
  unfold fraction at h
  simp only [Option.bind_eq_bind] at h
  split at h
  · split at h
    · rw [Option.bind_eq_some_iff] at h
      obtain ⟨whole, hwhole, h⟩ := h
      exact hadd (plainFront_digitRun (fun _ => plain_of_isDigit) hwhole) h
    · exact hadd (.zero _) h
  · exact hadd (.zero _) h

theorem plainFront_radix
    {p : Char → Bool}
    (hp : ∀ c, p c = true → Plain c)
    {c d : Char}
    {cs : List Char}
    {n : Nat}
    (hc : Plain c)
    (hd : Plain d)
    (h : radix p cs = some n) :
    PlainFront n (c :: d :: cs) := by
  unfold radix at h
  rw [Option.bind_eq_bind, Option.bind_eq_some_iff] at h
  obtain ⟨m, hm, h⟩ := h
  have hdigits := plainFront_digits hp hm
  split at h
  · rename_i hbig
    cases h
    have hend : PlainFront 1 (cs.drop m) := by
      cases hrest : cs.drop m with
      | nil => simp [hrest] at hbig
      | cons b rest =>
          simp only [hrest, List.head?_cons, beq_iff_eq, Option.some.injEq] at hbig
          subst hbig
          exact .cons ⟨rfl, rfl⟩ (.zero _)
    exact .cons hc (.cons hd (hdigits.add hend))
  · cases h
    exact .cons hc (.cons hd hdigits)

theorem plainFront_oldOctal
    {cs : List Char}
    {n : Nat}
    (h : oldOctal cs = some n) :
    PlainFront n cs := by
  have hdigits : PlainFront (cs.takeWhile Char.isDigit).length cs := by
    obtain ⟨back, hback⟩ := List.takeWhile_prefix (l := cs) Char.isDigit
    refine ⟨_, back, hback.symm, rfl, plain_of_all (fun _ => plain_of_isDigit) ?_⟩
    exact List.all_takeWhile
  unfold oldOctal at h
  simp only at h
  split at h
  · rename_i rest hrest
    split at h
    · simp only [Option.map_eq_some_iff] at h
      obtain ⟨m, hm, rfl⟩ := h
      rw [Nat.add_assoc, Nat.add_comm 1 m]
      refine hdigits.add ?_
      rw [hrest]
      exact .cons ⟨rfl, rfl⟩ (plainFront_fraction hm)
    · cases h
      exact hdigits
  · rename_i rest hrest
    split at h
    · simp only [Option.map_eq_some_iff] at h
      obtain ⟨m, hm, rfl⟩ := h
      refine hdigits.add ?_
      rw [hrest]
      exact plainFront_exponent hm
    · cases h
      exact hdigits
  · cases h
    exact hdigits

theorem plainFront_whole
    {cs : List Char}
    {n : Nat}
    (h : whole cs = some n) :
    PlainFront n cs := by
  unfold whole at h
  rw [Option.bind_eq_bind, Option.bind_eq_some_iff] at h
  obtain ⟨m, hm, h⟩ := h
  have hdigits := plainFront_digits (fun _ => plain_of_isDigit) hm
  split at h
  · rename_i rest hrest
    simp only [Option.map_eq_some_iff] at h
    obtain ⟨k, hk, rfl⟩ := h
    rw [Nat.add_assoc, Nat.add_comm 1 k]
    refine hdigits.add ?_
    rw [hrest]
    exact .cons ⟨rfl, rfl⟩ (plainFront_fraction hk)
  · rename_i rest hrest
    cases h
    refine hdigits.add ?_
    rw [hrest]
    exact .cons ⟨rfl, rfl⟩ (.zero _)
  · simp only [Option.map_eq_some_iff] at h
    obtain ⟨k, hk, rfl⟩ := h
    exact hdigits.add (plainFront_exponent hk)

theorem plainFront_length
    {cs : List Char}
    {n : Nat}
    (h : length cs = some n) :
    PlainFront n cs := by
  unfold length at h
  split at h
  · rename_i rest
    rw [Option.bind_eq_bind, Option.bind_eq_some_iff] at h
    obtain ⟨m, hm, h⟩ := h
    rw [Option.bind_eq_some_iff] at h
    obtain ⟨k, hk, h⟩ := h
    cases h
    rw [Nat.add_assoc, Nat.add_comm]
    exact .cons ⟨rfl, rfl⟩ ((plainFront_digits (fun _ => plain_of_isDigit) hm).add
      (plainFront_exponent hk))
  · rename_i c rest
    have hmark : ∀ {a b : Char}, (c == a || c == b) = true → Plain a → Plain b → Plain c := by
      intro a b hc ha hb
      simp only [Bool.or_eq_true, beq_iff_eq] at hc
      rcases hc with rfl | rfl
      · exact ha
      · exact hb
    split at h
    · rename_i hc
      exact plainFront_radix (fun _ => plain_of_isHexDigit) ⟨rfl, rfl⟩
        (hmark hc ⟨rfl, rfl⟩ ⟨rfl, rfl⟩) h
    · split at h
      · rename_i hc
        exact plainFront_radix (fun _ => plain_of_isOctalDigit) ⟨rfl, rfl⟩
          (hmark hc ⟨rfl, rfl⟩ ⟨rfl, rfl⟩) h
      · split at h
        · rename_i hc
          refine plainFront_radix ?_ ⟨rfl, rfl⟩ (hmark hc ⟨rfl, rfl⟩ ⟨rfl, rfl⟩) h
          intro d hd
          simp only [Bool.or_eq_true, beq_iff_eq] at hd
          rcases hd with rfl | rfl <;> exact ⟨rfl, rfl⟩
        · split at h
          · exact plainFront_oldOctal h
          · split at h
            · cases h
            · exact plainFront_whole h
  · exact plainFront_whole h

theorem inline_read
    {cursor behind : Cursor}
    (h : read cursor = some behind) :
    cursor.Inline behind := by
  unfold read at h
  rw [Option.bind_eq_bind, Option.bind_eq_some_iff] at h
  obtain ⟨n, hn, h⟩ := h
  obtain ⟨front, back, hrest, rfl, hplain⟩ := plainFront_length hn
  have hskip := Cursor.Inline.skip _ hrest hplain
  simp only at h
  split at h
  · split at h
    · cases h
    · cases h
      exact hskip
  · cases h
    exact hskip

/-- A number that begins with a digit or a point takes some of the text. -/
theorem lt_of_read
    {offset : Nat}
    {c : Char}
    {rest : List Char}
    {behind : Cursor}
    (hc : c.isDigit = true ∨ c = '.')
    (h : read ⟨offset, c :: rest⟩ = some behind) :
    offset < behind.offset := by
  unfold read at h
  rw [Option.bind_eq_bind, Option.bind_eq_some_iff] at h
  obtain ⟨n, hn, h⟩ := h
  have hpos : 0 < n := by
    rcases Nat.eq_zero_or_pos n with rfl | hpos
    · rcases hc with hdigit | rfl
      · -- a digit in front would have been taken
        simp [Cursor.skip, hdigit] at h
      · simp only [length, Option.bind_eq_bind, Option.bind_eq_some_iff, Option.some.injEq] at hn
        obtain ⟨_, _, _, _, hn⟩ := hn
        omega
    · exact hpos
  have hbehind : behind = (⟨offset, c :: rest⟩ : Cursor).skip n := by
    simp only at h
    split at h
    · split at h
      · cases h
      · exact (Option.some.inj h).symm
    · exact (Option.some.inj h).symm
  rw [hbehind]
  simp only [Cursor.skip]
  omega

end Numeric

/-! ### Tokens -/

theorem plain_of_mem_marks {m : String} (h : m ∈ marks) : ∀ c ∈ m.toList, Plain c := by
  have hall : marks.all (·.toList.all fun c => c.utf8Size == 1 && !isLineTerminator c) = true := by
    decide
  intro c hc
  simpa [plain_iff] using List.all_eq_true.mp (List.all_eq_true.mp hall m h) c hc

theorem mark?_eq_some
    {cs : List Char}
    {m : String}
    (h : mark? cs = some m) :
    ∃ back, cs = m.toList ++ back ∧ ∀ c ∈ m.toList, Plain c := by
  unfold mark? at h
  split at h
  · rename_i d rest
    split at h
    · cases h
      exact ⟨'.' :: d :: rest, rfl, plain_of_mem_marks (by decide)⟩
    · cases h
      exact ⟨d :: rest, rfl, plain_of_mem_marks (by decide)⟩
  · have hfront := List.find?_some h
    obtain ⟨back, hback⟩ := List.isPrefixOf_iff_prefix.mp hfront
    exact ⟨back, hback.symm, plain_of_mem_marks (List.mem_of_find?_eq_some h)⟩

theorem length_pos_of_mark?
    {cs : List Char}
    {m : String}
    (h : mark? cs = some m) :
    0 < m.length := by
  have hall : marks.all (0 < ·.length) = true := by decide
  unfold mark? at h
  split at h
  · split at h <;> cases h <;> decide
  · exact of_decide_eq_true (List.all_eq_true.mp hall m (List.mem_of_find?_eq_some h))

namespace Token

/-- What reading a token from a place says about it and the place behind it. -/
structure Covers (t : Token) (here behind : Cursor) : Prop where
  passes : here.Passes behind
  start : t.span.start = here.offset
  stop : t.span.stop = behind.offset
  stops : t.kind ≠ .finish → here.Stops behind
  word : t.kind = .word → here.Inline behind
  mark : t.kind = .mark → here.rest = t.text.toList ++ behind.rest

theorem covers_readHere
    {limit : Nat}
    {newline : Bool}
    {here behind : Cursor}
    {t : Token}
    (h : readHere limit newline here = some (t, behind)) :
    t.Covers here behind := by
  unfold readHere at h
  simp only at h
  split at h
  · cases h
    exact ⟨Cursor.Passes.refl _, rfl, rfl, by simp, by simp, by simp⟩
  · rename_i c rest hrest
    split at h
    · simp only [Option.bind_eq_bind, Option.bind_eq_some_iff] at h
      obtain ⟨w, hw, h⟩ := h
      cases h
      obtain ⟨hline, hlt⟩ := Word.inline_read hw
      exact ⟨hline.passes, rfl, rfl, fun _ => hline.stops hlt, fun _ => hline, by simp⟩
    · split at h
      · rename_i hdigit
        simp only [Option.bind_eq_bind, Option.bind_eq_some_iff] at h
        obtain ⟨_, hnumber, h⟩ := h
        cases h
        have hline := Numeric.inline_read hnumber
        refine ⟨hline.passes, rfl, rfl, fun _ => hline.stops ?_, by simp, by simp⟩
        simp only [Bool.or_eq_true, Bool.and_eq_true, beq_iff_eq] at hdigit
        have hcursor : here = ⟨here.offset, c :: rest⟩ := by rw [← hrest]
        rw [hcursor] at hnumber
        exact Numeric.lt_of_read (hdigit.imp_right And.left) hnumber
      · -- every other token goes on behind its first character
        have hone : ∀ {d : Char}, Plain d → c = d → here.Passes (here.skip 1) := by
          rintro d hd rfl
          exact ⟨[c], by simp [hrest, Cursor.skip], by simp [Cursor.skip, hd.size]⟩
        split at h
        · rename_i hquote
          simp only [Option.bind_eq_bind, Option.bind_eq_some_iff] at h
          obtain ⟨⟨codes, _⟩, hcodes, h⟩ := h
          cases h
          simp only [Bool.or_eq_true, beq_iff_eq] at hquote
          have hplain : Plain c := by rcases hquote with rfl | rfl <;> exact ⟨rfl, rfl⟩
          have hstops := (hone hplain rfl).stops (stops_quotedCodes hplain hcodes)
          exact ⟨hstops.passes, rfl, rfl, fun _ => hstops, by simp, by simp⟩
        · split at h
          · rename_i htick
            simp only [Option.bind_eq_bind, Option.bind_eq_some_iff] at h
            obtain ⟨e, he, h⟩ := h
            cases h
            rw [beq_iff_eq] at htick
            have hstretch : (here.skip 1).Stops e.behind := by
              rw [Cursor.skip, hrest]
              exact stops_readTemplate he
            have hstops := (hone ⟨rfl, rfl⟩ htick).stops hstretch
            exact ⟨hstops.passes, rfl, rfl, fun _ => hstops, by simp, by simp⟩
          · split at h
            · rename_i hsign
              simp only [Option.bind_eq_bind, Option.bind_eq_some_iff] at h
              obtain ⟨w, hw, h⟩ := h
              cases h
              rw [beq_iff_eq] at hsign
              obtain ⟨hline, hlt⟩ := Word.inline_read hw
              have hstops := (hone ⟨rfl, rfl⟩ hsign).stops (hline.stops hlt)
              exact ⟨hstops.passes, rfl, rfl, fun _ => hstops, by simp, by simp⟩
            · simp only [Option.bind_eq_bind, Option.bind_eq_some_iff] at h
              obtain ⟨m, hm, h⟩ := h
              cases h
              obtain ⟨back, hback, hplain⟩ := mark?_eq_some hm
              have hline : here.Inline (here.skip m.length) := by
                rw [← String.length_toList]
                exact Cursor.Inline.skip _ hback hplain
              refine ⟨hline.passes, rfl, rfl, fun _ => hline.stops ?_, by simp, fun _ => ?_⟩
              · have := length_pos_of_mark? hm
                simp only [Cursor.skip]
                omega
              · rw [← String.length_toList, Cursor.skip, hback, List.drop_left]

/-- Only at the end of the text there is no more token. -/
theorem rest_of_finish
    {limit : Nat}
    {newline : Bool}
    {here behind : Cursor}
    {t : Token}
    (h : readHere limit newline here = some (t, behind))
    (hfinish : t.kind = .finish) :
    here.rest = [] := by
  unfold readHere at h
  simp only at h
  split at h
  · assumption
  · -- every other branch makes a token of its own kind
    repeat' split at h
    all_goals
      simp only [Option.bind_eq_bind, Option.bind_eq_some_iff] at h
      obtain ⟨_, -, h⟩ := h
      cases h
      cases hfinish

/-- A token is read behind a gap. -/
theorem covers_read
    {limit : Nat}
    {cursor behind : Cursor}
    {t : Token}
    (h : read limit cursor = some (t, behind)) :
    ∃ here, cursor.Passes here ∧ t.Covers here behind := by
  unfold read at h
  simp only [Option.bind_eq_bind, Option.bind_eq_some_iff] at h
  obtain ⟨⟨newline, here⟩, hgap, h⟩ := h
  exact ⟨here, passes_skipGap hgap, covers_readHere h⟩

end Token
end Syntax
end EsModules
