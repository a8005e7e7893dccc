import EsModules.Syntax.Lexer
import EsModules.Text.Position
import Mathlib.Tactic.Common

/-!
# Places in a text

Byte offsets are meaningful where they fall between two characters.  `Boundary` says that of an
offset, and `Cursor.Passes` that a cursor has moved over some characters of the text and its
offset with it.  Every reading function of the lexer passes, so every token begins and ends
between two characters.

Some tokens may go over a line.  `Cursor.Inline` says that a cursor has moved within a line, and
`Cursor.Stops` that at least the last character it has passed does not end one.
-/

namespace EsModules
namespace Text

@[simp] theorem byteLength_nil : byteLength [] = 0 := rfl

@[simp] theorem byteLength_cons (c : Char) (cs : List Char) :
    byteLength (c :: cs) = c.utf8Size + byteLength cs := rfl

@[simp] theorem byteLength_append (as bs : List Char) :
    byteLength (as ++ bs) = byteLength as + byteLength bs := by
  induction as with
  | nil => simp
  | cons a as ih =>
      rw [List.cons_append, byteLength_cons, byteLength_cons, ih]
      omega

/-- Characters of one byte each. -/
def IsAscii (cs : List Char) : Prop :=
  ∀ c ∈ cs, c.utf8Size = 1

theorem byteLength_of_isAscii {cs : List Char} (h : IsAscii cs) : byteLength cs = cs.length := by
  induction cs with
  | nil => rfl
  | cons c cs ih =>
      have hc : c.utf8Size = 1 := h c (by simp)
      have hcs : IsAscii cs := fun d hd => h d (by simp [hd])
      rw [byteLength_cons, hc, ih hcs, List.length_cons]
      omega

theorem byteLength_eq_zero {cs : List Char} : byteLength cs = 0 ↔ cs = [] := by
  cases cs with
  | nil => simp
  | cons c cs =>
      have := c.utf8Size_pos
      simp
      omega

/-- A text is cut at an offset in one way. -/
theorem append_inj_of_byteLength
    {front front' back back' : List Char}
    (happend : front ++ back = front' ++ back')
    (hlen : byteLength front = byteLength front') :
    front = front' ∧ back = back' := by
  induction front generalizing front' with
  | nil =>
      obtain rfl : front' = [] := byteLength_eq_zero.mp hlen.symm
      exact ⟨rfl, happend⟩
  | cons c front ih =>
      cases front' with
      | nil =>
          have := byteLength_eq_zero.mp hlen
          simp at this
      | cons c' front' =>
          simp only [List.cons_append, List.cons.injEq] at happend
          obtain ⟨rfl, happend⟩ := happend
          simp only [byteLength_cons] at hlen
          obtain ⟨rfl, rfl⟩ := ih happend (by omega)
          exact ⟨rfl, rfl⟩

/-- Of two cuts of a text, the earlier one cuts the front of the later one. -/
theorem append_eq_append_of_le
    {front front' back back' : List Char}
    (happend : front ++ back = front' ++ back')
    (hle : byteLength front ≤ byteLength front') :
    ∃ middle, front' = front ++ middle ∧ back = middle ++ back' := by
  rcases List.append_eq_append_iff.mp happend with h | ⟨middle, hfront, hback⟩
  · exact h
  · rw [hfront, byteLength_append] at hle
    obtain rfl : middle = [] := byteLength_eq_zero.mp (by omega)
    exact ⟨[], by simpa using hfront.symm, by simpa using hback.symm⟩

/-! ### Slices -/

/-- The first character takes some of the bytes. -/
theorem byteLength_cons_eq_succ (c : Char) (cs : List Char) :
    ∃ n, byteLength (c :: cs) = n + 1 ∧ c.utf8Size ≤ n + 1 ∧
      n + 1 - c.utf8Size = byteLength cs := by
  have hpos := c.utf8Size_pos
  refine ⟨c.utf8Size + byteLength cs - 1, ?_, ?_, ?_⟩
  · rw [byteLength_cons]
    omega
  · omega
  · omega

theorem dropBytes_append (front back : List Char) :
    dropBytes (byteLength front) (front ++ back) = some back := by
  induction front with
  | nil => rw [byteLength_nil, List.nil_append, dropBytes]
  | cons c front ih =>
      obtain ⟨n, hlen, hsize, hrest⟩ := byteLength_cons_eq_succ c front
      rw [hlen, List.cons_append, dropBytes, if_pos hsize, hrest, ih]

theorem takeBytes_append (front back : List Char) :
    takeBytes (byteLength front) (front ++ back) = some front := by
  induction front with
  | nil => rw [byteLength_nil, takeBytes]
  | cons c front ih =>
      obtain ⟨n, hlen, hsize, hrest⟩ := byteLength_cons_eq_succ c front
      rw [hlen, List.cons_append, takeBytes, if_pos hsize, hrest, ih, Option.map_some]

theorem dropBytes_eq_some
    {n : Nat}
    {cs rest : List Char}
    (h : dropBytes n cs = some rest) :
    ∃ front, cs = front ++ rest ∧ byteLength front = n := by
  fun_induction dropBytes n cs with
  | case1 cs =>
      cases h
      exact ⟨[], rfl, rfl⟩
  | case2 => cases h
  | case3 n c cs hsize ih =>
      obtain ⟨front, rfl, hlen⟩ := ih h
      exact ⟨c :: front, rfl, by rw [byteLength_cons, hlen]; omega⟩
  | case4 => cases h

theorem takeBytes_eq_some
    {n : Nat}
    {cs got : List Char}
    (h : takeBytes n cs = some got) :
    ∃ back, cs = got ++ back := by
  fun_induction takeBytes n cs generalizing got with
  | case1 cs =>
      cases h
      exact ⟨cs, rfl⟩
  | case2 => cases h
  | case3 n c cs hsize ih =>
      obtain ⟨rest, hrest, rfl⟩ := Option.map_eq_some_iff.mp h
      obtain ⟨back, rfl⟩ := ih hrest
      exact ⟨back, rfl⟩
  | case4 => cases h

end Text

namespace Syntax

open Text

/-- The offset falls between two characters of the text, or at one of its ends. -/
def Boundary (text : List Char) (offset : Nat) : Prop :=
  ∃ front back, text = front ++ back ∧ byteLength front = offset

theorem Boundary.le_byteLength
    {text : List Char}
    {offset : Nat}
    (h : Boundary text offset) :
    offset ≤ byteLength text := by
  obtain ⟨front, back, rfl, rfl⟩ := h
  simp

theorem boundary_byteLength (text : List Char) : Boundary text (byteLength text) :=
  ⟨text, [], by simp, rfl⟩

/-- Three parts of a text that is cut at two bytes. -/
theorem Boundary.parts
    {text : List Char}
    {a b : Nat}
    (ha : Boundary text a)
    (hb : Boundary text b)
    (hab : a ≤ b) :
    ∃ front middle back,
      text = front ++ (middle ++ back) ∧ byteLength front = a ∧
        byteLength (front ++ middle) = b := by
  obtain ⟨front, rest, htext, rfl⟩ := ha
  obtain ⟨front', back, htext', rfl⟩ := hb
  obtain ⟨middle, rfl, rfl⟩ := append_eq_append_of_le (htext.symm.trans htext') hab
  exact ⟨front, middle, back, htext, rfl, rfl⟩

/-- A character of one byte that does not end a line. -/
@[mk_iff plain_iff]
structure Plain (c : Char) : Prop where
  size : c.utf8Size = 1
  line : isLineTerminator c = false

namespace Cursor

/-- The cursor stands at its offset in the text. -/
def At (text : List Char) (c : Cursor) : Prop :=
  ∃ front, text = front ++ c.rest ∧ byteLength front = c.offset

/-- The cursor `d` is reached from `c` by moving over some characters. -/
def Passes (c d : Cursor) : Prop :=
  ∃ between, c.rest = between ++ d.rest ∧ d.offset = c.offset + byteLength between

theorem At.boundary {text : List Char} {c : Cursor} (h : c.At text) : Boundary text c.offset := by
  obtain ⟨front, htext, hlen⟩ := h
  exact ⟨front, c.rest, htext, hlen⟩

theorem At.passes
    {text : List Char}
    {c d : Cursor}
    (h : c.At text)
    (hp : c.Passes d) :
    d.At text := by
  obtain ⟨front, htext, hlen⟩ := h
  obtain ⟨between, hrest, hoffset⟩ := hp
  exact ⟨front ++ between, by rw [htext, hrest, List.append_assoc],
    by rw [byteLength_append, hlen, hoffset]⟩

theorem Passes.refl (c : Cursor) : c.Passes c :=
  ⟨[], by simp, by simp⟩

theorem Passes.trans
    {c d e : Cursor}
    (h₁ : c.Passes d)
    (h₂ : d.Passes e) :
    c.Passes e := by
  obtain ⟨b₁, hrest₁, hoffset₁⟩ := h₁
  obtain ⟨b₂, hrest₂, hoffset₂⟩ := h₂
  refine ⟨b₁ ++ b₂, by rw [hrest₁, hrest₂, List.append_assoc], ?_⟩
  rw [hoffset₂, hoffset₁, byteLength_append]
  omega

theorem Passes.le {c d : Cursor} (h : c.Passes d) : c.offset ≤ d.offset := by
  obtain ⟨_, _, hoffset⟩ := h
  omega

/-- One character is passed. -/
theorem Passes.char
    {offset : Nat}
    {c : Char}
    {rest : List Char} :
    (⟨offset, c :: rest⟩ : Cursor).Passes ⟨offset + c.utf8Size, rest⟩ :=
  ⟨[c], rfl, by simp⟩

/-- Characters of one byte each are passed by their number. -/
theorem Passes.skip
    {c : Cursor}
    {back : List Char}
    (front : List Char)
    (hrest : c.rest = front ++ back)
    (hascii : IsAscii front) :
    c.Passes (c.skip front.length) := by
  refine ⟨front, ?_, ?_⟩
  · simp [Cursor.skip, hrest]
  · rw [byteLength_of_isAscii hascii]
    rfl

/-! ### Lines -/

/-- The cursor `d` is reached from `c` by moving over some characters of a line. -/
def Inline (c d : Cursor) : Prop :=
  ∃ between, c.rest = between ++ d.rest ∧ d.offset = c.offset + byteLength between ∧
    ∀ x ∈ between, isLineTerminator x = false

theorem Inline.passes {c d : Cursor} (h : c.Inline d) : c.Passes d := by
  obtain ⟨between, hrest, hoffset, -⟩ := h
  exact ⟨between, hrest, hoffset⟩

theorem Inline.refl (c : Cursor) : c.Inline c :=
  ⟨[], by simp, by simp, by simp⟩

theorem Inline.trans
    {c d e : Cursor}
    (h₁ : c.Inline d)
    (h₂ : d.Inline e) :
    c.Inline e := by
  obtain ⟨b₁, hrest₁, hoffset₁, hline₁⟩ := h₁
  obtain ⟨b₂, hrest₂, hoffset₂, hline₂⟩ := h₂
  refine ⟨b₁ ++ b₂, by rw [hrest₁, hrest₂, List.append_assoc], ?_, ?_⟩
  · rw [hoffset₂, hoffset₁, byteLength_append, Nat.add_assoc]
  · exact List.forall_mem_append.mpr ⟨hline₁, hline₂⟩

theorem Inline.char
    {offset : Nat}
    {c : Char}
    {rest : List Char}
    (hline : isLineTerminator c = false) :
    (⟨offset, c :: rest⟩ : Cursor).Inline ⟨offset + c.utf8Size, rest⟩ :=
  ⟨[c], rfl, by simp, by simpa using hline⟩

theorem Inline.skip
    {c : Cursor}
    {back : List Char}
    (front : List Char)
    (hrest : c.rest = front ++ back)
    (hplain : ∀ x ∈ front, Plain x) :
    c.Inline (c.skip front.length) := by
  obtain ⟨between, hbetween, hoffset⟩ :=
    Passes.skip front hrest fun x hx => (hplain x hx).size
  have hskip : (c.skip front.length).rest = back := by simp [Cursor.skip, hrest]
  obtain rfl : between = front := by
    rw [hskip, hrest] at hbetween
    exact (List.append_cancel_right hbetween).symm
  exact ⟨between, hbetween, hoffset, fun x hx => (hplain x hx).line⟩

/-- The cursor `d` is reached from `c`, and the last character on the way does not end a line. -/
def Stops (c d : Cursor) : Prop :=
  ∃ between last, c.rest = between ++ last :: d.rest ∧
    d.offset = c.offset + byteLength between + last.utf8Size ∧ isLineTerminator last = false

theorem Stops.passes {c d : Cursor} (h : c.Stops d) : c.Passes d := by
  obtain ⟨between, last, hrest, hoffset, -⟩ := h
  exact ⟨between ++ [last], by simpa using hrest, by simp [hoffset, Nat.add_assoc]⟩

theorem Stops.lt {c d : Cursor} (h : c.Stops d) : c.offset < d.offset := by
  obtain ⟨between, last, -, hoffset, -⟩ := h
  have := last.utf8Size_pos
  omega

theorem Stops.char
    {offset : Nat}
    {c : Char}
    {rest : List Char}
    (hline : isLineTerminator c = false) :
    (⟨offset, c :: rest⟩ : Cursor).Stops ⟨offset + c.utf8Size, rest⟩ :=
  ⟨[], c, rfl, by simp, hline⟩

theorem Passes.stops
    {c d e : Cursor}
    (h₁ : c.Passes d)
    (h₂ : d.Stops e) :
    c.Stops e := by
  obtain ⟨between, hrest, hoffset⟩ := h₁
  obtain ⟨more, last, hrest', hoffset', hline⟩ := h₂
  refine ⟨between ++ more, last, by rw [hrest, hrest', List.append_assoc], ?_, hline⟩
  rw [hoffset', hoffset, byteLength_append, Nat.add_assoc c.offset]

/-- A move within a line that takes some characters stops in the line. -/
theorem Inline.stops
    {c d : Cursor}
    (h : c.Inline d)
    (hlt : c.offset < d.offset) :
    c.Stops d := by
  obtain ⟨between, hrest, hoffset, hline⟩ := h
  rcases List.eq_nil_or_concat between with rfl | ⟨front, last, rfl⟩
  · simp only [byteLength_nil] at hoffset
    omega
  · refine ⟨front, last, by simpa using hrest, ?_, hline last (by simp)⟩
    rw [hoffset, List.concat_eq_append, byteLength_append, Nat.add_assoc]
    rfl

end Cursor
end Syntax
end EsModules
