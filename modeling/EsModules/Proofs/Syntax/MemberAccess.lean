import EsModules.Catalog
import EsModules.Proofs.Syntax.Lexer
import EsModules.Proofs.Syntax.NameChars
import EsModules.Proofs.Syntax.StringLiteral

/-!
# Member expressions

A named import is read as a property of its handle, behind a point or in brackets.  `memberAccess?`
reads such an expression back with the lexer: it answers the object and the key of the property if
the text is a member expression on a name, and nothing otherwise.

The key in brackets is always the name.  Behind a point the name is read as a word only if it is an
identifier, and the choice between the two forms goes by other classes of characters, so that some
names are printed in a form that is no expression (`named_access_denotes`).
-/

namespace EsModules
namespace Syntax

open Text

/-- The tokens from a place up to the end of the text, at most `count` of them. -/
def tokensFrom (limit : Nat) : Nat → Cursor → Option (List Token)
  | 0, _ => none
  | count + 1, cursor => do
      let (token, behind) ← Token.read limit cursor
      if token.kind == .finish then return []
      else return token :: (← tokensFrom limit count behind)

/-- The tokens of a text. -/
def tokens? (text : String) : Option (List Token) :=
  let limit := text.toList.length + 2
  tokensFrom limit limit ⟨0, text.toList⟩

/-- The object and the key of a member expression on a name. -/
def memberOf? : List Token → Option (String × String)
  | [object, point, property] =>
      if object.isName && point.isMark "." && property.kind == .word then
        some (object.text, property.text)
      else none
  | [object, opening, key, closing] =>
      if object.isName && opening.isMark "[" && key.kind == .string && closing.isMark "]" then
        some (object.text, key.text)
      else none
  | _ => none

/-- The object and the key of a text that is a member expression on a name. -/
def memberAccess? (text : String) : Option (String × String) := do
  memberOf? (← tokens? text)

/-! ### Single tokens -/

theorem read_of_not_separator
    {c : Char}
    (hline : isLineTerminator c = false)
    (hspace : isSpace c = false)
    (hslash : c ≠ '/')
    (limit offset : Nat)
    (rest : List Char) :
    Token.read limit ⟨offset, c :: rest⟩ = Token.readHere limit false ⟨offset, c :: rest⟩ := by
  have hgap : skipGap .space false offset (c :: rest) = some (false, ⟨offset, c :: rest⟩) := by
    rw [skipGap]
    · simp [hline, hspace]
    · exact fun _ h _ => hslash h
    · exact fun _ h _ => hslash h
  rw [Token.read, hgap]
  rfl

theorem readTail_cons
    {c : Char}
    (hescape : c ≠ '\\')
    (limit offset : Nat)
    (rest : List Char) :
    Word.readTail (limit + 1) ⟨offset, c :: rest⟩ =
      if isIdentifierPart c then
        (Word.readTail limit ⟨offset + c.utf8Size, rest⟩).map (Word.push c false)
      else some ⟨[], false, ⟨offset, c :: rest⟩⟩ := by
  rw [Word.readTail]
  · exact hescape
  · exact fun _ h _ => hescape h

/-- The characters of a word are read up to one that does not belong to it. -/
theorem readTail_append
    {letters rest : List Char}
    (hletters : ∀ c ∈ letters, isIdentifierPart c = true)
    (hrest : ∀ c ∈ rest.head?, isIdentifierPart c = false ∧ c ≠ '\\')
    {limit : Nat}
    (hlimit : letters.length < limit)
    (offset : Nat) :
    Word.readTail limit ⟨offset, letters ++ rest⟩ =
      some ⟨letters, false, ⟨offset + byteLength letters, rest⟩⟩ := by
  induction letters generalizing limit offset with
  | nil =>
      obtain ⟨limit, rfl⟩ := Nat.exists_eq_add_one_of_ne_zero (Nat.ne_of_gt hlimit)
      cases rest with
      | nil => rfl
      | cons c rest =>
          obtain ⟨hpart, hescape⟩ := hrest c rfl
          rw [List.nil_append, readTail_cons hescape, if_neg (by simp [hpart])]
          rfl
  | cons c letters ih =>
      obtain ⟨limit, rfl⟩ :=
        Nat.exists_eq_add_one_of_ne_zero (Nat.ne_of_gt (Nat.zero_lt_of_lt hlimit))
      have hpart := hletters c (by simp)
      have hescape : c ≠ '\\' := by
        rintro rfl
        exact absurd hpart (by decide)
      have htail := ih (fun d hd => hletters d (by simp [hd])) (Nat.lt_of_succ_lt_succ hlimit)
        (offset + c.utf8Size)
      rw [List.cons_append, readTail_cons hescape, if_pos hpart, htail]
      simp [Word.push, Nat.add_assoc]

/-- A word is read as one token up to its end. -/
theorem read_word
    {first : Char}
    {letters rest : List Char}
    (hfirst : isIdentifierStart first = true)
    (hspace : isSpace first = false)
    (hletters : ∀ c ∈ letters, isIdentifierPart c = true)
    (hrest : ∀ c ∈ rest.head?, isIdentifierPart c = false ∧ c ≠ '\\')
    {limit : Nat}
    (hlimit : letters.length < limit)
    (offset : Nat) :
    Token.read limit ⟨offset, first :: letters ++ rest⟩ =
      some (⟨.word, ⟨offset, offset + byteLength (first :: letters)⟩,
        String.ofList (first :: letters), false, false⟩,
        ⟨offset + byteLength (first :: letters), rest⟩) := by
  have hslash : first ≠ '/' := by
    rintro rfl
    exact absurd hfirst (by decide)
  have hescape : first ≠ '\\' := by
    rintro rfl
    exact absurd hfirst (by decide)
  have hword : Word.read limit ⟨offset, first :: (letters ++ rest)⟩ =
      some ⟨first :: letters, false, ⟨offset + byteLength (first :: letters), rest⟩⟩ := by
    unfold Word.read
    split
    · rename_i heq
      exact absurd (List.cons.inj heq).1 hescape
    · rename_i heq
      cases heq
      rw [if_pos hfirst, readTail_append hletters hrest hlimit]
      simp [Word.push, Nat.add_assoc]
    · rename_i heq
      cases heq
  rw [List.cons_append,
    read_of_not_separator (isLineTerminator_of_isIdentifierStart hfirst) hspace hslash,
    Token.readHere]
  simp only [hfirst, Bool.true_or, if_true, hword]
  rfl

theorem toNat_lt_of_plain {c : Char} (h : Plain c) : c.toNat < 0x80 := by
  have hle := UInt32.le_iff_toNat_le.mp (Char.utf8Size_eq_one_iff.mp h.size)
  exact Nat.lt_succ_of_le hle

/-- A character beyond ASCII begins no token, unless it begins a word. -/
theorem read_eq_none
    {c : Char}
    (hbeyond : 0x80 ≤ c.toNat)
    (hstart : isIdentifierStart c = false)
    (hline : isLineTerminator c = false)
    (hspace : isSpace c = false)
    (limit offset : Nat)
    (rest : List Char) :
    Token.read limit ⟨offset, c :: rest⟩ = none := by
  have hne : ∀ x : Char, x.toNat < 0x80 → c ≠ x := by
    rintro x hx rfl
    omega
  have hdigit : c.isDigit = false := by
    rw [Bool.eq_false_iff]
    intro hdigit
    have := toNat_lt_of_plain (plain_of_isDigit hdigit)
    omega
  have hmark : mark? (c :: rest) = none := by
    rw [Option.eq_none_iff_forall_ne_some]
    intro m hm
    obtain ⟨back, hback, hplain⟩ := mark?_eq_some hm
    cases hchars : m.toList with
    | nil =>
        have hlength := length_pos_of_mark? hm
        rw [← String.length_toList, hchars] at hlength
        cases hlength
    | cons d chars =>
        rw [hchars] at hback hplain
        obtain rfl := (List.cons.inj hback).1
        have := toNat_lt_of_plain (hplain c (by simp))
        omega
  rw [read_of_not_separator hline hspace (hne '/' (by decide)), Token.readHere]
  simp [hstart, hdigit, hmark, hne '\\' (by decide), hne '.' (by decide), hne '"' (by decide),
    hne '\'' (by decide), hne '\x60' (by decide), hne '#' (by decide)]

theorem read_point
    {c : Char}
    (hdigit : c.isDigit = false)
    (hpoint : c ≠ '.')
    (limit offset : Nat)
    (rest : List Char) :
    Token.read limit ⟨offset, '.' :: c :: rest⟩ =
      some (⟨.mark, ⟨offset, offset + 1⟩, ".", false, false⟩, ⟨offset + 1, c :: rest⟩) := by
  have hmark : mark? ('.' :: c :: rest) = some "." := by
    simp [mark?, marks, List.isPrefixOf, hpoint.symm]
  rw [read_of_not_separator (by decide) (by decide) (by decide), Token.readHere]
  have hstart : isIdentifierStart '.' = false := by decide
  have hlength : ".".length = 1 := rfl
  simp [hstart, hdigit, hmark, Cursor.skip, hlength]

theorem read_opening (limit offset : Nat) (rest : List Char) :
    Token.read limit ⟨offset, '[' :: rest⟩ =
      some (⟨.mark, ⟨offset, offset + 1⟩, "[", false, false⟩, ⟨offset + 1, rest⟩) :=
  rfl

theorem read_closing (limit offset : Nat) (rest : List Char) :
    Token.read limit ⟨offset, ']' :: rest⟩ =
      some (⟨.mark, ⟨offset, offset + 1⟩, "]", false, false⟩, ⟨offset + 1, rest⟩) :=
  rfl

/-! ### Several tokens -/

theorem tokensFrom_of_read
    {limit : Nat}
    {cursor behind : Cursor}
    {token : Token}
    (hread : Token.read limit cursor = some (token, behind))
    (hkind : token.kind ≠ .finish)
    (count : Nat) :
    tokensFrom limit (count + 1) cursor = (tokensFrom limit count behind).map (token :: ·) := by
  rw [tokensFrom, hread]
  simp only [bind, Option.bind, beq_iff_eq, hkind, if_false]
  cases tokensFrom limit count behind <;> rfl

theorem tokensFrom_of_read_eq_none
    {limit : Nat}
    {cursor : Cursor}
    (hread : Token.read limit cursor = none)
    (count : Nat) :
    tokensFrom limit (count + 1) cursor = none := by
  rw [tokensFrom, hread]
  rfl

theorem tokensFrom_end (limit count offset : Nat) :
    tokensFrom limit (count + 1) ⟨offset, []⟩ = some [] :=
  rfl

/-! ### Names behind a point -/

theorem le_of_isAlpha {c : Char} (h : c.isAlpha = true) : 'A'.toNat ≤ c.toNat := by
  have hcases : (c.isUpper || c.isLower) = true := h
  rcases Bool.or_eq_true_iff.mp hcases with hupper | hlower
  · exact UInt32.le_iff_toNat_le.mp (of_decide_eq_true hupper).1
  · have hle := UInt32.le_iff_toNat_le.mp
      (of_decide_eq_true (Bool.and_eq_true_iff.mp hlower).1)
    exact Nat.le_trans (by decide) hle

theorem isDigit_of_isNameStart {c : Char} (h : isNameStart c = true) : c.isDigit = false := by
  rw [Bool.eq_false_iff]
  intro hdigit
  have hascii := toNat_lt_of_plain (plain_of_isDigit hdigit)
  have hbeyond : ¬0x80 ≤ c.toNat := by omega
  simp only [isNameStart, isAlphabetic, isLetter, hascii, hbeyond, if_true, decide_false,
    Bool.false_and, Bool.or_false, Bool.or_eq_true, beq_iff_eq] at h
  rcases h with (rfl | rfl) | h
  · exact absurd hdigit (by decide)
  · exact absurd hdigit (by decide)
  · have hle := UInt32.le_iff_toNat_le.mp
      (of_decide_eq_true (Bool.and_eq_true_iff.mp hdigit).2)
    exact absurd (Nat.le_trans (le_of_isAlpha h) hle) (by decide)

/-- A word stops before a false part. -/
theorem stops_of_isFalsePart
    {c : Char}
    (hname : isNamePart c = true)
    (hfalse : isFalsePart c = true) :
    isIdentifierPart c = false ∧ c ≠ '\\' := by
  constructor
  · rw [isIdentifierPart_of_isNamePart hname, hfalse]
    rfl
  · rintro rfl
    exact absurd (beyond_of_isFalsePart hfalse) (by decide)

/-- No token begins with a false part. -/
theorem read_of_isFalsePart
    {c : Char}
    (hname : isNamePart c = true)
    (hfalse : isFalsePart c = true)
    (limit offset : Nat)
    (rest : List Char) :
    Token.read limit ⟨offset, c :: rest⟩ = none := by
  obtain ⟨hline, hspace⟩ := not_separator_of_isNamePart hname
  have hstart : isIdentifierStart c = false := by
    rw [Bool.eq_false_iff]
    intro hstart
    have hpart := (stops_of_isFalsePart hname hfalse).1
    rw [isIdentifierPart_of_isIdentifierStart hstart] at hpart
    cases hpart
  exact read_eq_none (beyond_of_isFalsePart hfalse) hstart hline hspace limit offset rest

/-- The name has a character at which reading a word fails. -/
def hasFalseChar : List Char → Bool
  | [] => false
  | first :: rest => isFalseStart first || rest.any isFalsePart

/-- A name at the end of a text is read as a word, or not read at all. -/
theorem tokensFrom_name
    {first : Char}
    {rest : List Char}
    (hfirst : isNameStart first = true)
    (hrest : ∀ c ∈ rest, isNamePart c = true)
    {limit : Nat}
    (hlimit : rest.length < limit)
    (offset count : Nat) :
    tokensFrom limit (count + 2) ⟨offset, first :: rest⟩ =
      if hasFalseChar (first :: rest) then none
      else some [⟨.word, ⟨offset, offset + byteLength (first :: rest)⟩,
        String.ofList (first :: rest), false, false⟩] := by
  obtain ⟨hline, hspace⟩ := not_separator_of_isNamePart (isNamePart_of_isNameStart hfirst)
  have hstart := isIdentifierStart_of_isNameStart hfirst
  cases hfalse : isFalseStart first with
  | true =>
      have hnone := read_eq_none (beyond_of_isFalseStart hfalse) (by rw [hstart, hfalse]; rfl)
        hline hspace limit offset rest
      rw [tokensFrom_of_read_eq_none hnone]
      simp [hasFalseChar, hfalse]
  | false =>
      rw [hfalse] at hstart
      cases hfind : rest.find? isFalsePart with
      | none =>
          have htrue : ∀ c ∈ rest, isFalsePart c = false := by
            simpa using List.find?_eq_none.mp hfind
          have hparts : ∀ c ∈ rest, isIdentifierPart c = true := by
            intro c hc
            rw [isIdentifierPart_of_isNamePart (hrest c hc), htrue c hc]
            rfl
          have hword : Token.read limit ⟨offset, first :: rest ++ []⟩ = _ :=
            read_word hstart hspace hparts (by simp) hlimit offset
          rw [List.append_nil] at hword
          rw [tokensFrom_of_read hword (by simp), tokensFrom_end]
          have hany : rest.any isFalsePart = false := by simpa using htrue
          simp [hasFalseChar, hfalse, hany]
      | some c =>
          obtain ⟨hc, front, back, rfl, hfront⟩ := List.find?_eq_some_iff_append.mp hfind
          have hparts : ∀ x ∈ front, isIdentifierPart x = true := by
            intro x hx
            rw [isIdentifierPart_of_isNamePart (hrest x (by simp [hx])), hfront x hx]
          have hname := hrest c (by simp)
          have hword : Token.read limit ⟨offset, first :: front ++ c :: back⟩ = _ :=
            read_word hstart hspace hparts (by simpa using stops_of_isFalsePart hname hc)
              (by simp only [List.length_append] at hlimit; omega) offset
          rw [← List.cons_append, tokensFrom_of_read hword (by simp),
            tokensFrom_of_read_eq_none (read_of_isFalsePart hname hc _ _ _)]
          simp [hasFalseChar, hc]

/-! ### Handles -/

theorem toList_handleName (index : Nat) :
    (Catalog.handleName index).toList =
      '_' :: ("_imports_".toList ++ ((Nat.repr index).toList ++ "__".toList)) := by
  have hfront : "__imports_".toList = '_' :: "_imports_".toList := by decide
  simp only [Catalog.handleName, toString, String.toList_append, hfront, List.append_assoc]
  rfl

theorem isIdentifierPart_of_isDigit {c : Char} (h : c.isDigit = true) :
    isIdentifierPart c = true := by
  simp [isIdentifierPart, toNat_lt_of_plain (plain_of_isDigit h), Char.isAlphanum, h]

/-- The token of a handle at the beginning of a text. -/
def handleToken (index : Nat) : Token :=
  ⟨.word, ⟨0, byteLength (Catalog.handleName index).toList⟩, Catalog.handleName index, false, false⟩

/-- A handle is read as a word. -/
theorem tokensFrom_handle
    (index : Nat)
    {rest : List Char}
    (hrest : ∀ c ∈ rest.head?, isIdentifierPart c = false ∧ c ≠ '\\')
    {limit : Nat}
    (hlimit : (Catalog.handleName index).toList.length ≤ limit)
    (count : Nat) :
    tokensFrom limit (count + 1) ⟨0, (Catalog.handleName index).toList ++ rest⟩ =
      (tokensFrom limit count ⟨byteLength (Catalog.handleName index).toList, rest⟩).map
        (handleToken index :: ·) := by
  have hletters : ∀ c ∈ "_imports_".toList ++ ((Nat.repr index).toList ++ "__".toList),
      isIdentifierPart c = true := by
    refine List.forall_mem_append.mpr ⟨?_, List.forall_mem_append.mpr ⟨?_, ?_⟩⟩
    · have hall : "_imports_".toList.all isIdentifierPart = true := by decide
      exact List.all_eq_true.mp hall
    · intro c hc
      rw [Nat.toList_repr] at hc
      exact isIdentifierPart_of_isDigit (Nat.isDigit_of_mem_toDigits (by decide) (by decide) hc)
    · have hall : "__".toList.all isIdentifierPart = true := by decide
      exact List.all_eq_true.mp hall
  rw [toList_handleName, List.length_cons] at hlimit
  have hword : Token.read limit ⟨0, '_' :: _ ++ rest⟩ = _ :=
    read_word (by decide) (by decide) hletters hrest hlimit 0
  rw [← toList_handleName, String.ofList_toList, Nat.zero_add] at hword
  exact tokensFrom_of_read hword (by simp) count

/-- A handle may name a binding. -/
theorem isName_handleToken (index : Nat) : (handleToken index).isName = true := by
  have hall : reservedWords.all (·.toList.head? != some '_') = true := by decide
  have hfree : reservedWords.contains (Catalog.handleName index) = false := by
    rw [Bool.eq_false_iff]
    intro hmem
    have hhead := List.all_eq_true.mp hall _ (List.contains_iff_mem.mp hmem)
    rw [toList_handleName] at hhead
    cases hhead
  simp only [Token.isName, handleToken, hfree]
  rfl

/-! ### Both forms -/

theorem exists_of_isIdentifierName {name : String} (h : isIdentifierName name = true) :
    ∃ first rest, name.toList = first :: rest ∧ isNameStart first = true ∧
      ∀ c ∈ rest, isNamePart c = true := by
  unfold isIdentifierName at h
  split at h
  · cases h
  · rename_i first rest hchars
    rw [Bool.and_eq_true, List.all_eq_true] at h
    exact ⟨first, rest, hchars, h⟩

/-- A name behind a point is the key, unless it has a false character. -/
theorem memberAccess?_point
    (index : Nat)
    {name : String}
    (hname : isIdentifierName name = true) :
    memberAccess? (Catalog.handleName index ++ "." ++ name) =
      if hasFalseChar name.toList then none else some (Catalog.handleName index, name) := by
  obtain ⟨first, rest, hchars, hfirst, hrest⟩ := exists_of_isIdentifierName hname
  have hpoint : first ≠ '.' := by
    rintro rfl
    exact absurd hfirst (by decide)
  have htext : (Catalog.handleName index ++ "." ++ name).toList =
      (Catalog.handleName index).toList ++ '.' :: first :: rest := by
    simp [hchars]
  have hlengths := congrArg List.length htext
  simp only [List.length_append, List.length_cons] at hlengths
  obtain ⟨limit, hlimit⟩ := Nat.exists_eq_add_of_le'
    (show 4 ≤ (Catalog.handleName index ++ "." ++ name).toList.length + 2 by omega)
  rw [memberAccess?, tokens?, hlimit, htext, tokensFrom_handle index (by simp; decide) (by omega),
    tokensFrom_of_read (read_point (isDigit_of_isNameStart hfirst) hpoint _ _ _) (by simp),
    tokensFrom_name hfirst hrest (by omega), ← hchars, String.ofList_toList]
  split
  · rfl
  · simp only [Option.map_some, bind, Option.bind, memberOf?, isName_handleToken, Token.isMark]
    rfl

/-- A name in brackets is the key. -/
theorem memberAccess?_brackets (index : Nat) (name : String) (format : FormatOptions) :
    memberAccess? (Catalog.handleName index ++ "[" ++ format.quote name ++ "]") =
      some (Catalog.handleName index, name) := by
  have htext : (Catalog.handleName index ++ "[" ++ format.quote name ++ "]").toList =
      (Catalog.handleName index).toList ++ ['['] ++ (format.quote name).toList ++ [']'] := by
    simp
  have hlengths := congrArg List.length htext
  simp only [List.length_append, List.length_cons] at hlengths
  have hfilled : 0 < (Catalog.handleName index).toList.length := by
    rw [toList_handleName]
    exact Nat.succ_pos _
  obtain ⟨limit, hlimit⟩ := Nat.exists_eq_add_of_le'
    (show 5 ≤ (Catalog.handleName index ++ "[" ++ format.quote name ++ "]").toList.length + 2 by
      omega)
  have hstring := (read_quote format name ((Catalog.handleName index).toList ++ ['[']) [']']).2
  rw [← htext, hlimit] at hstring
  have hplace : byteLength ((Catalog.handleName index).toList ++ ['[']) =
      byteLength (Catalog.handleName index).toList + 1 := by
    rw [byteLength_append]
    rfl
  rw [hplace] at hstring
  rw [memberAccess?, tokens?, hlimit, htext, List.append_assoc, List.append_assoc,
    List.singleton_append, tokensFrom_handle index (by simp; decide) (by omega),
    tokensFrom_of_read (read_opening _ _ _) (by simp), tokensFrom_of_read hstring (by simp),
    tokensFrom_of_read (read_closing _ _ _) (by simp), tokensFrom_end]
  simp only [Option.map_some, bind, Option.bind, memberOf?, isName_handleToken, Token.isMark]
  rfl

end Syntax

/-- The expression that is written for a named import is a member expression on the handle, whose
key is the name, unless the name is written behind a point and has a false character: then the text
is no such expression. -/
theorem named_access_denotes (index : Nat) (name : String) (format : FormatOptions) :
    Syntax.memberAccess? (accessExpression (Catalog.handleName index) (.named name) format) =
      if isIdentifierName name && Syntax.hasFalseChar name.toList then none
      else some (Catalog.handleName index, name) := by
  by_cases hname : isIdentifierName name = true
  · rw [accessExpression, if_pos hname, hname, Bool.true_and]
    exact Syntax.memberAccess?_point index hname
  · rw [accessExpression, if_neg hname, Bool.eq_false_iff.mpr hname, Bool.false_and]
    exact Syntax.memberAccess?_brackets index name format

/-- A circled letter is written behind a point, where it is no word. -/
theorem named_access_of_circled_letter :
    accessExpression (Catalog.handleName 0) (.named "ⓐ") {} = "__imports_0__.ⓐ" ∧
      Syntax.memberAccess? "__imports_0__.ⓐ" = none ∧
      accessExpression (Catalog.handleName 0) (.named "x²") {} = "__imports_0__.x²" ∧
      Syntax.memberAccess? "__imports_0__.x²" = none := by
  decide +kernel

end EsModules
