import EsModules.Config.Json
import EsModules.Text.JsonString
import Mathlib.Data.List.Forall2
import Mathlib.Tactic.Common

/-!
# JSON that is written is read back

A string in which quotes, backslashes and control characters are escaped is read as the text that
it was written for.  What is read in front of a comma or a closing bracket (`Reads`) makes up lists
and the members of objects (`reads_list`, `parse?_object`).
-/

namespace EsModules

namespace Text
namespace Reader

variable {σ α : Type}

theorem run_next (c : Char) (rest : List Char) : next.run (c :: rest) = some (c, rest) := rfl

theorem run_peek? (rest : List Char) : peek?.run rest = some (rest.head?, rest) := rfl

theorem run_expect (c : Char) (rest : List Char) :
    (expect c).run (c :: rest) = some ((), rest) := by
  simp [expect, run_next]

theorem run_accept (text : String) (rest : List Char) :
    (accept text).run (text.toList ++ rest) = some (true, rest) := by
  simp [accept, ← String.length_toList]

theorem run_accept_of_not
    {text : String}
    {here : List Char}
    (h : ¬text.toList <+: here) :
    (accept text).run here = some (false, here) := by
  simp [accept, h]

theorem run_skipWhile_of_not
    {p : Char → Bool}
    {c : Char}
    (h : p c = false)
    (rest : List Char) :
    (skipWhile p).run (c :: rest) = some ((), c :: rest) := by
  simp [skipWhile, h]

/-! ### Repeated steps -/

variable {step : σ → Reader (σ ⊕ α)} {state : σ} {here rest : List Char}

theorem run_iterate_inl
    {next : σ}
    (h : (step state).run here = some (.inl next, rest))
    (bound : Nat) :
    (iterate step (bound + 1) state).run here = (iterate step bound next).run rest := by
  simp [iterate, h]

theorem run_iterate_inr
    {a : α}
    (h : (step state).run here = some (.inr a, rest))
    (bound : Nat) :
    (iterate step (bound + 1) state).run here = some (a, rest) := by
  simp [iterate, h]

theorem run_loop (start : σ) (step : σ → Reader (σ ⊕ α)) (here : List Char) :
    (loop start step).run here = (iterate step (here.length + 1) start).run here := by
  simp [loop]

end Reader

theorem hexValue?_digitChar : ∀ n < 16, hexValue? (Nat.digitChar n) = some n := by
  decide

theorem run_hexNumber
    {digit : Char}
    {n : Nat}
    (h : hexValue? digit = some n)
    (count before : Nat)
    (rest : List Char) :
    (hexNumber (count + 1) before).run (digit :: rest) =
      (hexNumber count (before * 16 + n)).run rest := by
  simp [hexNumber, Reader.run_next, h]

end Text

namespace Config
namespace Json

open Text

/-! ### Strings -/

/-- One character of a string, or its end. -/
def stringStep (text : List Char) : Reader (List Char ⊕ String) := do
  match ← Reader.next with
  | '"' => return .inr (String.ofList text.reverse)
  | '\\' => return .inl ((← escape) :: text)
  | c => if c < ' ' then failure else return .inl (c :: text)

theorem stringRest_eq : stringRest = Reader.loop [] stringStep := rfl

section Step

variable {c : Char} (text rest : List Char)

theorem run_stringStep_end :
    (stringStep text).run ('"' :: rest) = some (.inr (String.ofList text.reverse), rest) := rfl

theorem run_stringStep_plain
    (hquote : c ≠ '"')
    (hbackslash : c ≠ '\\')
    (hcontrol : ¬c.toNat < 0x20) :
    (stringStep text).run (c :: rest) = some (.inl (c :: text), rest) := by
  have hle : ¬c < ' ' := hcontrol
  simp [stringStep, Reader.run_next, hle]

theorem run_stringStep_short
    {letter : Char}
    (h : shortEscape? letter = some c) :
    (stringStep text).run ('\\' :: letter :: rest) = some (.inl (c :: text), rest) := by
  simp [stringStep, escape, Reader.run_next, h]

theorem run_stringStep_code
    (hcontrol : c.toNat < 0x20) :
    (stringStep text).run
        ('\\' :: 'u' :: '0' :: '0' :: Nat.digitChar (c.toNat / 16) ::
          Nat.digitChar (c.toNat % 16) :: rest) =
      some (.inl (c :: text), rest) := by
  have hzero : hexValue? '0' = some 0 := by decide
  have hhigh := hexValue?_digitChar (c.toNat / 16) (by omega)
  have hlow := hexValue?_digitChar (c.toNat % 16) (by omega)
  have hsum : (((0 * 16 + 0) * 16 + 0) * 16 + c.toNat / 16) * 16 + c.toNat % 16 = c.toNat := by
    omega
  have hnumber : (hexNumber 4 0).run ('0' :: '0' :: Nat.digitChar (c.toNat / 16) ::
      Nat.digitChar (c.toNat % 16) :: rest) = some (c.toNat, rest) := by
    rw [run_hexNumber hzero, run_hexNumber hzero, run_hexNumber hhigh, run_hexNumber hlow, hsum]
    rfl
  have hsurrogate : ¬(0xD800 ≤ c.toNat ∧ c.toNat < 0xDC00) := by omega
  have hchar : charOfCode? c.toNat = some c := by
    have hvalid : c.toNat.isValidChar := c.valid
    rw [charOfCode?, if_pos hvalid, Char.ofNat_toNat]
  have hcode : codeEscape.run ('0' :: '0' :: Nat.digitChar (c.toNat / 16) ::
      Nat.digitChar (c.toNat % 16) :: rest) = some (c, rest) := by
    simp [codeEscape, hnumber, hsurrogate, hchar]
  have hletter : shortEscape? 'u' = none := by decide
  simp [stringStep, escape, Reader.run_next, hletter, hcode]

/-- An escaped character is read as the character. -/
theorem run_stringStep_jsonChar (c : Char) :
    (stringStep text).run (jsonChar c ++ rest) = some (.inl (c :: text), rest) := by
  unfold jsonChar
  iterate 7
    split
    · rename_i h
      rw [beq_iff_eq.mp h]
      exact run_stringStep_short text rest (by decide)
  split
  · rename_i hcontrol
    exact run_stringStep_code text rest hcontrol
  · rename_i hquote hbackslash _ _ _ _ _ hcontrol
    exact run_stringStep_plain text rest (by simpa using hquote) (by simpa using hbackslash)
      hcontrol

end Step

theorem run_iterate_stringStep
    (text rest : List Char)
    (before : List Char)
    (bound : Nat)
    (hbound : text.length < bound) :
    (Reader.iterate stringStep bound before).run (text.flatMap jsonChar ++ '"' :: rest) =
      some (String.ofList (before.reverse ++ text), rest) := by
  induction text generalizing before bound with
  | nil =>
      obtain ⟨bound, rfl⟩ := Nat.exists_eq_add_of_lt hbound
      rw [List.flatMap_nil, List.nil_append, List.append_nil]
      exact Reader.run_iterate_inr (run_stringStep_end before rest) _
  | cons c text ih =>
      obtain ⟨bound, rfl⟩ := Nat.exists_eq_add_of_lt hbound
      rw [List.flatMap_cons, List.append_assoc,
        Reader.run_iterate_inl (run_stringStep_jsonChar _ _ c),
        ih _ _ (by rw [List.length_cons]; omega)]
      simp

theorem jsonChar_ne_nil (c : Char) : jsonChar c ≠ [] := by
  unfold jsonChar
  iterate 8
    split
    · simp
  simp

theorem length_le_flatMap_jsonChar (text : List Char) :
    text.length ≤ (text.flatMap jsonChar).length := by
  induction text with
  | nil => exact Nat.le_refl 0
  | cons c text ih =>
      have hpos := List.length_pos_iff.mpr (jsonChar_ne_nil c)
      rw [List.flatMap_cons, List.length_append, List.length_cons]
      omega

/-- A string is read as the text that it was written for. -/
theorem run_stringRest (text : String) (rest : List Char) :
    stringRest.run (text.toList.flatMap jsonChar ++ '"' :: rest) = some (text, rest) := by
  have hlength := length_le_flatMap_jsonChar text.toList
  have hbound : text.toList.length < (text.toList.flatMap jsonChar ++ '"' :: rest).length + 1 := by
    rw [List.length_append]
    omega
  rw [stringRest_eq, Reader.run_loop, run_iterate_stringStep _ _ _ _ hbound, List.reverse_nil,
    List.nil_append, String.ofList_toList]

/-! ### Items in front of a mark -/

/-- A comma or a bracket that stands behind an item. -/
def IsMark (c : Char) : Prop :=
  c = ',' ∨ c = ']' ∨ c = '\x7d'

/-- In front of a mark the reader takes the text and gives the value. -/
def Reads {α : Type} (reader : Reader α) (text : List Char) (a : α) : Prop :=
  ∀ mark rest, IsMark mark → reader.run (text ++ mark :: rest) = some (a, mark :: rest)

theorem run_skipSpace
    {c : Char}
    (h : c ≠ ' ' ∧ c ≠ '\t' ∧ c ≠ '\n' ∧ c ≠ '\r')
    (rest : List Char) :
    skipSpace.run (c :: rest) = some ((), c :: rest) :=
  Reader.run_skipWhile_of_not (by simp [h]) rest

theorem IsMark.run_skipSpace
    {mark : Char}
    (h : IsMark mark)
    (rest : List Char) :
    skipSpace.run (mark :: rest) = some ((), mark :: rest) := by
  apply Json.run_skipSpace
  rcases h with rfl | rfl | rfl <;> decide

section Items

variable {α : Type} {item : Reader α} {text : List Char} {a : α} {close : Char}

/-- One item with the mark behind it. -/
def itemStep (item : Reader α) (close : Char) (items : List α) : Reader (List α ⊕ List α) := do
  let items := (← item) :: items
  skipSpace
  if ← Reader.accept "," then return .inl items
  Reader.expect close
  return .inr items.reverse

theorem itemsRest_eq (item : Reader α) (close : Char) :
    itemsRest item close = (do
      skipSpace
      if (← Reader.peek?) == some close then
        let _ ← Reader.next
        return []
      Reader.loop [] (itemStep item close)) :=
  rfl

theorem run_itemStep_comma
    (h : Reads item text a)
    (items : List α)
    (rest : List Char) :
    (itemStep item close items).run (text ++ ',' :: rest) = some (.inl (a :: items), rest) := by
  have hmark : IsMark ',' := .inl rfl
  have haccept : (Reader.accept ",").run (',' :: rest) = some (true, rest) :=
    Reader.run_accept "," rest
  simp only [itemStep, StateT.run_bind, h ',' rest hmark, Option.bind_eq_bind, Option.bind_some,
    hmark.run_skipSpace, haccept, if_true]
  rfl

theorem run_itemStep_close
    (h : Reads item text a)
    (hclose : close = ']' ∨ close = '\x7d')
    (items : List α)
    (rest : List Char) :
    (itemStep item close items).run (text ++ close :: rest) =
      some (.inr (items.reverse ++ [a]), rest) := by
  have hmark : IsMark close := .inr hclose
  have haccept : (Reader.accept ",").run (close :: rest) = some (false, close :: rest) := by
    apply Reader.run_accept_of_not
    rcases hclose with rfl | rfl <;> simp
  simp only [itemStep, StateT.run_bind, h close rest hmark, Option.bind_eq_bind, Option.bind_some,
    hmark.run_skipSpace, haccept, Bool.false_eq_true, if_false, Reader.run_expect]
  simp

variable {texts : List (List Char)} {values : List α}

theorem run_iterate_itemStep
    (h : List.Forall₂ (Reads item) texts values)
    (hsome : texts ≠ [])
    (hclose : close = ']' ∨ close = '\x7d')
    (rest : List Char)
    (items : List α)
    (bound : Nat)
    (hbound : texts.length ≤ bound) :
    (Reader.iterate (itemStep item close) bound items).run
        ([','].intercalate texts ++ close :: rest) =
      some (items.reverse ++ values, rest) := by
  induction h generalizing items bound with
  | nil => exact absurd rfl hsome
  | @cons text a texts values hread hreads ih =>
      cases bound with
      | zero => simp at hbound
      | succ bound =>
          cases hreads with
          | nil =>
              rw [List.intercalate_singleton,
                Reader.run_iterate_inr (run_itemStep_close hread hclose items rest)]
          | cons hread' hreads =>
              have hmore := ih (by simp) (a :: items) bound (by simpa using hbound)
              rw [List.intercalate_cons_cons, List.append_assoc, List.append_assoc,
                List.singleton_append, Reader.run_iterate_inl (run_itemStep_comma hread items _),
                hmore]
              simp

theorem length_le_intercalate (texts : List (List Char)) :
    texts.length ≤ ([','].intercalate texts).length + 1 := by
  induction texts with
  | nil => simp
  | cons text texts ih =>
      cases texts with
      | nil => simp
      | cons text' texts =>
          rw [List.intercalate_cons_cons, List.length_append, List.length_append,
            List.length_singleton, List.length_cons]
          omega

/-- Items that are separated by commas are read one by one up to the closing mark. -/
theorem run_itemsRest
    (h : List.Forall₂ (Reads item) texts values)
    (hquoted : ∀ text ∈ texts, text.head? = some '"')
    (hclose : close = ']' ∨ close = '\x7d')
    (rest : List Char) :
    (itemsRest item close).run ([','].intercalate texts ++ close :: rest) =
      some (values, rest) := by
  cases h with
  | nil =>
      have hmark : IsMark close := .inr hclose
      simp [itemsRest_eq, hmark.run_skipSpace, Reader.run_peek?, Reader.run_next]
  | @cons text a texts values hread hreads =>
      obtain ⟨back, hback⟩ : ∃ back, [','].intercalate (text :: texts) = '"' :: back := by
        obtain ⟨back, rfl⟩ := List.head?_eq_some_iff.mp (hquoted text List.mem_cons_self)
        cases texts with
        | nil => exact ⟨back, List.intercalate_singleton⟩
        | cons text' texts => exact ⟨_, List.intercalate_cons_cons⟩
      have hlength := length_le_intercalate (text :: texts)
      have hiterate := run_iterate_itemStep (.cons hread hreads) (by simp) hclose rest []
        (([','].intercalate (text :: texts) ++ close :: rest).length + 1)
        (by rw [List.length_append]; omega)
      rw [hback] at hiterate ⊢
      have hspace := run_skipSpace (c := '"') (by decide) (back ++ close :: rest)
      have hopen : '"' ≠ close := by rcases hclose with rfl | rfl <;> decide
      simpa [itemsRest_eq, hspace, Reader.run_peek?, hopen, Reader.run_loop] using hiterate

end Items

/-! ### Values -/

theorem toList_jsonString (text : String) :
    (jsonString text).toList = '"' :: (text.toList.flatMap jsonChar ++ ['"']) := by
  simp [jsonString]

theorem head?_jsonString (text : String) : (jsonString text).toList.head? = some '"' := by
  rw [toList_jsonString, List.head?_cons]

theorem reads_string (depth : Nat) (text : String) :
    Reads (value (depth + 1)) (jsonString text).toList (.string text) := by
  intro mark rest _
  have hspace := run_skipSpace (c := '"') (by decide)
  rw [toList_jsonString]
  simp [value, hspace, Reader.run_peek?, Reader.run_next, run_stringRest]

theorem reads_list
    {depth : Nat}
    {texts : List (List Char)}
    {values : List Value}
    (h : List.Forall₂ (Reads (value depth)) texts values)
    (hquoted : ∀ text ∈ texts, text.head? = some '"') :
    Reads (value (depth + 1)) ('[' :: ([','].intercalate texts ++ [']'])) (.list values) := by
  intro mark rest _
  have hspace := run_skipSpace (c := '[') (by decide)
  have hitems := run_itemsRest h hquoted (.inl rfl) (mark :: rest)
  simp [value, hspace, Reader.run_peek?, Reader.run_next, hitems]

/-! ### Objects -/

theorem reads_pair
    {reader : Reader Value}
    {text : List Char}
    {a : Value}
    (h : Reads reader text a)
    (key : String) :
    Reads (pair reader) ((jsonString key).toList ++ ':' :: text) (key, a) := by
  intro mark rest hmark
  have hquote := run_skipSpace (c := '"') (by decide)
  have hcolon := run_skipSpace (c := ':') (by decide)
  rw [toList_jsonString]
  simp [pair, hquote, hcolon, Reader.run_expect, run_stringRest, h mark rest hmark]

/-- An object is read as the dictionary of its members. -/
theorem parse?_object
    {texts : List (List Char)}
    {members : List (String × Value)}
    (h : List.Forall₂ (Reads (pair (value depthLimit))) texts members)
    (hquoted : ∀ text ∈ texts, text.head? = some '"') :
    parse? (String.ofList ('\x7b' :: ([','].intercalate texts ++ ['\x7d']))) =
      some (Fields.ofList members) := by
  have hspace := run_skipSpace (c := '\x7b') (by decide)
  have hend : skipSpace.run [] = some ((), []) := rfl
  have hitems := run_itemsRest h hquoted (.inr rfl) []
  simp [parse?, Reader.all?, document, object, hspace, hend, Reader.run_expect, hitems]

end Json

/-! ### Dictionaries -/

namespace Fields

theorem get?_cons (key other : String) (value : Value) (rest : Fields) :
    get? ((key, value) :: rest) other = if other = key then some value else get? rest other := by
  by_cases h : other = key
  · simp [get?, h]
  · simp [get?, h, Ne.symm h]

/-- What is set is found, and every other key is left alone. -/
theorem get?_set
    (fields : Fields)
    (key other : String)
    (value : Value) :
    (fields.set key value).get? other = if other = key then some value else fields.get? other := by
  induction fields with
  | nil => rw [set, get?_cons]
  | cons entry rest ih =>
      obtain ⟨k, v⟩ := entry
      rw [set]
      split
      · rw [get?_cons]
      · split
        · rename_i hsame
          rw [get?_cons, get?_cons, beq_iff_eq.mp hsame]
          split <;> rfl
        · rename_i hother
          rw [beq_iff_eq] at hother
          rw [get?_cons, ih, get?_cons]
          split
          · rename_i hk
            rw [if_neg]
            rintro rfl
            exact hother hk
          · rfl

end Fields

end Config
end EsModules
