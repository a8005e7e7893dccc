import EsModules.Text.Position

/-!
# Lines and columns

A `LineIndex` keeps the offsets at which the lines of a text start and looks a byte offset up by
halving the table.  Lines end at a line feed and nothing else.

Offsets are natural numbers.  A text is read as a module only if it is shorter than 4 GiB
(`Syntax.Program.maxBytes`), so the offsets in a module fit in 32 bits.
-/

namespace EsModules
namespace Text

/-- The places behind the line feeds of a text that begins at the offset `here`. -/
def feedEnds : Nat → List Char → List Nat
  | _, [] => []
  | here, c :: cs =>
      if c == '\n' then (here + 1) :: feedEnds (here + 1) cs else feedEnds (here + c.utf8Size) cs

theorem lt_of_mem_feedEnds
    {here x : Nat}
    {cs : List Char}
    (h : x ∈ feedEnds here cs) :
    here < x := by
  fun_induction feedEnds here cs with
  | case1 => simp at h
  | case2 here c cs _ ih =>
      rcases List.mem_cons.mp h with rfl | h
      · omega
      · have := ih h
        omega
  | case3 here c cs _ ih =>
      have := ih h
      omega

theorem pairwise_feedEnds (here : Nat) (cs : List Char) : (feedEnds here cs).Pairwise (· < ·) := by
  fun_induction feedEnds here cs with
  | case1 => exact .nil
  | case2 here c cs _ ih => exact .cons (fun _ => lt_of_mem_feedEnds) ih
  | case3 here c cs _ ih => exact ih

/-- Halves the part of an ascending list between the positions `lo` and `hi` until it finds a value;
fails with the position at which the value would have to be inserted. -/
def bisect (starts : List Nat) (offset lo hi : Nat) : Except Nat Nat :=
  if lo < hi then
    let middle := lo + (hi - lo) / 2
    match compare (starts.getD middle 0) offset with
    | .eq => .ok middle
    | .lt => bisect starts offset (middle + 1) hi
    | .gt => bisect starts offset lo middle
  else .error lo
termination_by hi - lo

/-- A text with the offsets at which its lines start. -/
structure LineIndex where
  text : List Char
  starts : List Nat
  ascending : starts.Pairwise (· < ·)

namespace LineIndex

/-- The first line starts with the text and every other one behind a line feed. -/
def ofText (text : String) : LineIndex where
  text := text.toList
  starts := 0 :: feedEnds 0 text.toList
  ascending := .cons (fun _ => lt_of_mem_feedEnds) (pairwise_feedEnds 0 text.toList)

/-- The line of an offset: the one that starts there, or else the one before the place where a start
would have to be inserted. -/
def lineOf (index : LineIndex) (offset : Nat) : Nat :=
  match bisect index.starts offset 0 index.starts.length with
  | .ok line => line
  | .error next => next - 1

/-- The line and column of a byte offset, looked up in the table of line starts. -/
def lineColumn (index : LineIndex) (offset : Nat) : Nat × Nat :=
  let offset := min offset (byteLength index.text)
  let line := index.lineOf offset
  (line, ((slice? index.text ⟨index.starts.getD line 0, offset⟩).getD []).length)

end LineIndex

/-- The line and column of a byte offset, both counted from zero; columns count characters.  An
offset behind the end stands for the end, and one inside a character has column zero. -/
def lineColumn (text : String) (offset : Nat) : Nat × Nat :=
  (LineIndex.ofText text).lineColumn offset

end Text
end EsModules
