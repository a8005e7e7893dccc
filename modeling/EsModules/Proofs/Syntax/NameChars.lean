import EsModules.Access
import EsModules.Syntax.Lexer.Gap
import EsModules.Text.IdentifierChar
import Mathlib.Tactic.Common

/-!
# Characters of names and of identifiers

A name is written behind a point if its characters are alphabetic or numeric (`isIdentifierName`).
Identifiers have their own classes of characters, and the two do not agree: some alphabetic
characters do not begin an identifier (`isFalseStart`), and some alphanumeric ones do not stand in
one at all (`isFalsePart`).  These are the only differences.

All classes are unions of intervals, so that a comparison is a computation on the intervals
(`covers`, `apart`), which the kernel does.
-/

namespace EsModules
namespace Text

/-! ### Unions of intervals -/

/-- Each interval of `inner` lies in one of `outer`. -/
def covers (outer inner : List (Nat × Nat)) : Bool :=
  inner.all fun i => outer.any fun o => Nat.ble o.1 i.1 && Nat.ble i.2 o.2

/-- No interval of the one list meets one of the other. -/
def apart (as bs : List (Nat × Nat)) : Bool :=
  as.all fun a => bs.all fun b => Nat.blt a.2 b.1 || Nat.blt b.2 a.1

theorem inIntervals_of_covers
    {outer inner : List (Nat × Nat)}
    (h : covers outer inner = true)
    {code : Nat}
    (hcode : inIntervals inner code = true) :
    inIntervals outer code = true := by
  obtain ⟨i, hi, hlo, hhi⟩ : ∃ i ∈ inner, i.1 ≤ code ∧ code ≤ i.2 := by
    simpa [inIntervals] using hcode
  obtain ⟨o, ho, hole, hile⟩ : ∃ o ∈ outer, o.1 ≤ i.1 ∧ i.2 ≤ o.2 := by
    simpa using List.all_eq_true.mp h i hi
  have : o.1 ≤ code ∧ code ≤ o.2 := by omega
  simpa [inIntervals] using ⟨o.1, o.2, ho, this⟩

theorem inIntervals_of_apart
    {as bs : List (Nat × Nat)}
    (h : apart as bs = true)
    {code : Nat}
    (hcode : inIntervals as code = true) :
    inIntervals bs code = false := by
  obtain ⟨a, ha, hlo, hhi⟩ : ∃ a ∈ as, a.1 ≤ code ∧ code ≤ a.2 := by
    simpa [inIntervals] using hcode
  rw [inIntervals, List.any_eq_false]
  intro b hb
  have hab : a.2 < b.1 ∨ b.2 < a.1 := by
    simpa using List.all_eq_true.mp (List.all_eq_true.mp h a ha) b hb
  simp only [Bool.and_eq_true, decide_eq_true_eq]
  omega

theorem inIntervals_append (as bs : List (Nat × Nat)) (code : Nat) :
    inIntervals (as ++ bs) code = (inIntervals as code || inIntervals bs code) := by
  simp [inIntervals]

/-! ### Where the classes differ -/

/-- Letters in circles and squares, which are alphabetic symbols. -/
def enclosedLetterIntervals : List (Nat × Nat) :=
    [(0x24b6, 0x24e9), (0x1f130, 0x1f149), (0x1f150, 0x1f169), (0x1f170, 0x1f189)]

/-- An alphabetic character that does not begin an identifier: the vertical tilde, or one that is
not a letter and not in ID_Start for other reasons. -/
def isFalseStart (c : Char) : Bool :=
  c.toNat == 0x2e2f
    || (!isLetter c && inIntervals alphabeticMarkIntervals c.toNat
      && !inIntervals extraStartIntervals c.toNat)

/-- An alphanumeric character that does not stand in an identifier: the vertical tilde, an enclosed
letter, or a number that is neither a letter nor in ID_Continue. -/
def isFalsePart (c : Char) : Bool :=
  c.toNat == 0x2e2f
    || (!isLetter c && (inIntervals enclosedLetterIntervals c.toNat
      || (inIntervals numeralIntervals c.toNat && !inIntervals continueIntervals c.toNat)))

/-- The alphabetic marks stand in identifiers, but for the enclosed letters. -/
theorem covers_alphabeticMarks :
    covers (extraStartIntervals ++ (enclosedLetterIntervals ++ continueIntervals))
      alphabeticMarkIntervals = true := by
  decide +kernel

/-- The code points of the zero-width joiners and of the further characters of ID_Start. -/
def extraPartIntervals : List (Nat × Nat) :=
  (0x200c, 0x200d) :: extraStartIntervals

theorem apart_enclosedLetters :
    apart enclosedLetterIntervals (extraPartIntervals ++ continueIntervals) = true := by
  decide +kernel

theorem apart_numerals : apart numeralIntervals extraPartIntervals = true := by
  decide +kernel

theorem apart_ascii :
    apart [(0, 0x7f)] (alphabeticMarkIntervals ++ (enclosedLetterIntervals ++ numeralIntervals)) =
      true := by
  decide +kernel

/-- The classes beyond ASCII have no ASCII characters. -/
theorem inIntervals_ascii
    {code : Nat}
    (h : code < 0x80) :
    inIntervals alphabeticMarkIntervals code = false ∧
      inIntervals enclosedLetterIntervals code = false ∧
      inIntervals numeralIntervals code = false := by
  have hascii : inIntervals [(0, 0x7f)] code = true := by
    simp [inIntervals]
    omega
  have hnone := inIntervals_of_apart apart_ascii hascii
  simpa [inIntervals_append] using hnone

theorem extraPart_eq_false
    {code : Nat}
    (h : inIntervals extraPartIntervals code = false) :
    inIntervals extraStartIntervals code = false ∧ (code == 0x200c) = false ∧
      (code == 0x200d) = false := by
  rw [extraPartIntervals, inIntervals, List.any_cons, Bool.or_eq_false_iff] at h
  obtain ⟨hjoiner, hstart⟩ := h
  simp only [Bool.and_eq_false_iff, decide_eq_false_iff_not] at hjoiner
  refine ⟨hstart, ?_, ?_⟩
  · rw [beq_eq_false_iff_ne]
    omega
  · rw [beq_eq_false_iff_ne]
    omega

theorem inIntervals_tilde :
    inIntervals extraStartIntervals 0x2e2f = false ∧
      inIntervals continueIntervals 0x2e2f = false := by
  decide +kernel

/-- A character that may be the first one of a name behind a point. -/
def isNameStart (c : Char) : Bool :=
  c == '_' || c == '$' || isAlphabetic c

/-- A character that may be a further one of a name behind a point. -/
def isNamePart (c : Char) : Bool :=
  c == '_' || c == '$' || isAlphanumeric c

theorem ne_of_beyond {c : Char} (h : ¬c.toNat < 0x80) : c ≠ '_' ∧ c ≠ '$' := by
  constructor
  · rintro rfl
    exact h (by decide)
  · rintro rfl
    exact h (by decide)

/-- A name begins like an identifier, unless with a false start. -/
theorem isIdentifierStart_of_isNameStart {c : Char} (h : isNameStart c = true) :
    isIdentifierStart c = !isFalseStart c := by
  by_cases hascii : c.toNat < 0x80
  · have hmark := (inIntervals_ascii hascii).1
    have htilde : c.toNat ≠ 0x2e2f := by omega
    have hbeyond : ¬0x80 ≤ c.toNat := by omega
    simp only [isNameStart, isAlphabetic, isLetter, hascii, hbeyond, if_true, decide_false,
      Bool.false_and, Bool.or_false, Bool.or_eq_true, beq_iff_eq] at h
    simp only [isIdentifierStart, isFalseStart, hascii, hmark, if_true,
      beq_eq_false_iff_ne.mpr htilde, Bool.and_false, Bool.false_and, Bool.or_false,
      Bool.not_false, Bool.or_eq_true, beq_iff_eq]
    tauto
  · obtain ⟨hlow, hdollar⟩ := ne_of_beyond hascii
    have halphabetic : isLetter c = true ∨ inIntervals alphabeticMarkIntervals c.toNat = true := by
      simpa [isNameStart, isAlphabetic, hlow, hdollar, Nat.le_of_not_lt hascii] using h
    simp only [isIdentifierStart, isFalseStart, hascii, if_false]
    by_cases htilde : c.toNat = 0x2e2f
    · simp [htilde, inIntervals_tilde.1]
    · have hother : (c.toNat == 0x2e2f) = false := beq_eq_false_iff_ne.mpr htilde
      cases hletter : isLetter c with
      | true => simp [bne, hother]
      | false =>
          have hmark : inIntervals alphabeticMarkIntervals c.toNat = true := by
            simpa [hletter] using halphabetic
          simp [hother, hmark]

/-- A name goes on like an identifier, unless with a false part. -/
theorem isIdentifierPart_of_isNamePart {c : Char} (h : isNamePart c = true) :
    isIdentifierPart c = !isFalsePart c := by
  by_cases hascii : c.toNat < 0x80
  · obtain ⟨-, henclosed, hnumeral⟩ := inIntervals_ascii hascii
    have htilde : c.toNat ≠ 0x2e2f := by omega
    have hbeyond : ¬0x80 ≤ c.toNat := by omega
    simp only [isNamePart, isAlphanumeric, isAlphabetic, isNumeral, isLetter, hascii, hbeyond,
      if_true, decide_false, Bool.false_and, Bool.or_false, Bool.or_eq_true, beq_iff_eq] at h
    simp only [isIdentifierPart, isFalsePart, hascii, henclosed, hnumeral, if_true,
      beq_eq_false_iff_ne.mpr htilde, Char.isAlphanum, Bool.and_false, Bool.false_and,
      Bool.or_false, Bool.not_false, Bool.or_eq_true, beq_iff_eq]
    tauto
  · obtain ⟨hlow, hdollar⟩ := ne_of_beyond hascii
    have halphanumeric : isLetter c = true ∨ inIntervals alphabeticMarkIntervals c.toNat = true ∨
        inIntervals numeralIntervals c.toNat = true := by
      simpa [isNamePart, isAlphanumeric, isAlphabetic, isNumeral, hlow, hdollar, hascii,
        Nat.le_of_not_lt hascii, or_assoc] using h
    simp only [isIdentifierPart, isIdentifierStart, isFalsePart, hascii, if_false]
    by_cases htilde : c.toNat = 0x2e2f
    · simp [htilde, inIntervals_tilde]
    · have hother : (c.toNat == 0x2e2f) = false := beq_eq_false_iff_ne.mpr htilde
      cases hletter : isLetter c with
      | true => simp [bne, hother]
      | false =>
          cases henclosed : inIntervals enclosedLetterIntervals c.toNat with
          | true =>
              have hnone := inIntervals_of_apart apart_enclosedLetters henclosed
              rw [inIntervals_append, Bool.or_eq_false_iff] at hnone
              obtain ⟨hstart, hjoins, hjoiner⟩ := extraPart_eq_false hnone.1
              simp [hstart, hjoins, hjoiner, hnone.2]
          | false =>
              cases hnumeral : inIntervals numeralIntervals c.toNat with
              | true =>
                  obtain ⟨hstart, hjoins, hjoiner⟩ :=
                    extraPart_eq_false (inIntervals_of_apart apart_numerals hnumeral)
                  simp [hstart, hjoins, hjoiner, hother]
              | false =>
                  have hmark : inIntervals alphabeticMarkIntervals c.toNat = true := by
                    simpa [hletter, hnumeral] using halphanumeric
                  have hcovered := inIntervals_of_covers covers_alphabeticMarks hmark
                  simp only [inIntervals_append, henclosed, Bool.false_or, Bool.or_eq_true]
                    at hcovered
                  rcases hcovered with hstart | hcontinue
                  · simp [hother, hstart]
                  · simp [hother, hcontinue]

theorem isNamePart_of_isNameStart {c : Char} (h : isNameStart c = true) : isNamePart c = true := by
  simp only [isNameStart, isNamePart, isAlphanumeric, Bool.or_eq_true] at h ⊢
  tauto

theorem beyond_of_isFalseStart {c : Char} (h : isFalseStart c = true) : 0x80 ≤ c.toNat := by
  by_contra hascii
  have htilde : c.toNat ≠ 0x2e2f := by omega
  simp [isFalseStart, htilde, inIntervals_ascii (Nat.lt_of_not_le hascii)] at h

theorem beyond_of_isFalsePart {c : Char} (h : isFalsePart c = true) : 0x80 ≤ c.toNat := by
  by_contra hascii
  have htilde : c.toNat ≠ 0x2e2f := by omega
  simp [isFalsePart, htilde, inIntervals_ascii (Nat.lt_of_not_le hascii)] at h

theorem isIdentifierPart_of_isIdentifierStart {c : Char} (h : isIdentifierStart c = true) :
    isIdentifierPart c = true := by
  by_cases hascii : c.toNat < 0x80
  · simp only [isIdentifierStart, hascii, if_true, Bool.or_eq_true] at h
    simp only [isIdentifierPart, hascii, if_true, Char.isAlphanum, Bool.or_eq_true]
    tauto
  · simp [isIdentifierPart, hascii, h]

/-! ### Characters between tokens -/

/-- The blank characters beyond ASCII that do not end a line. -/
def spaceIntervals : List (Nat × Nat) :=
    [(0x85, 0x85), (0xa0, 0xa0), (0x1680, 0x1680), (0x2000, 0x200b), (0x202f, 0x202f),
     (0x205f, 0x205f), (0x3000, 0x3000), (0xfeff, 0xfeff)]

theorem apart_spaces :
    apart spaceIntervals (letterIntervals ++ (alphabeticMarkIntervals ++ numeralIntervals)) =
      true := by
  decide +kernel

open Syntax in
/-- A character of a name does not separate tokens. -/
theorem not_separator_of_isNamePart {c : Char} (h : isNamePart c = true) :
    isLineTerminator c = false ∧ isSpace c = false := by
  constructor
  · rw [Bool.eq_false_iff]
    intro hline
    simp only [isLineTerminator, Bool.or_eq_true, beq_iff_eq] at hline
    rcases hline with ((rfl | rfl) | rfl) | rfl <;> exact absurd h (by decide +kernel)
  · rw [Bool.eq_false_iff]
    intro hspace
    by_cases hascii : c.toNat < 0x80
    · simp only [isSpace, hascii, if_true, Bool.or_eq_true, beq_iff_eq] at hspace
      rcases hspace with ((rfl | rfl) | rfl) | rfl <;> exact absurd h (by decide +kernel)
    · have hblank : inIntervals spaceIntervals c.toNat = true := by
        simpa [isSpace, hascii, spaceIntervals] using hspace
      have hnone := inIntervals_of_apart apart_spaces hblank
      simp only [inIntervals_append, Bool.or_eq_false_iff] at hnone
      obtain ⟨hletter, hmark, hnumeral⟩ := hnone
      obtain ⟨hlow, hdollar⟩ := ne_of_beyond hascii
      simp [isNamePart, isAlphanumeric, isAlphabetic, isLetter, isNumeral, hascii, hlow, hdollar,
        hletter, hmark, hnumeral] at h

end Text
end EsModules
