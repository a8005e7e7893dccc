import EsModules.Proofs.Syntax.Cursor
import EsModules.Text.LineIndex
import Mathlib.Data.Prod.Lex

/-!
# Lines and columns of a text

The line of an offset is the number of line feeds before it, and the column the number of
characters between the last of them and the offset.  Going through the text once finds both
(`scannedLineColumn_append`).

`lineColumn` finds them in another way, in a table of the offsets at which the lines start.  The two
ways agree on every offset (`lineColumn_eq_scanned`), since both give the last line that starts at
the offset or before it (`LastStart`).
-/

namespace EsModules
namespace Text

/-! ### The last line -/

/-- The characters behind the last line feed, all of them if there is none. -/
def lastLine (front : List Char) : List Char :=
  (front.reverse.takeWhile (· != '\n')).reverse

/-- The characters up to the last line feed. -/
def earlierLines (front : List Char) : List Char :=
  (front.reverse.dropWhile (· != '\n')).reverse

theorem earlierLines_append_lastLine (front : List Char) :
    earlierLines front ++ lastLine front = front := by
  rw [earlierLines, lastLine, ← List.reverse_append, List.takeWhile_append_dropWhile,
    List.reverse_reverse]

theorem earlierLines_snoc (front : List Char) (c : Char) :
    earlierLines (front ++ [c]) = if c = '\n' then front ++ [c] else earlierLines front := by
  by_cases hc : c = '\n'
  · simp [earlierLines, hc]
  · simp [earlierLines, hc]

theorem lastLine_append
    (front : List Char)
    {middle : List Char}
    (h : '\n' ∉ middle) :
    lastLine (front ++ middle) = lastLine front ++ middle := by
  have hmiddle : ∀ c ∈ middle.reverse, (c != '\n') = true := by
    intro c hc
    have hne : c ≠ '\n' := fun heq => h (heq ▸ List.mem_reverse.mp hc)
    simpa using hne
  rw [lastLine, List.reverse_append, List.takeWhile_append_of_pos hmiddle, List.reverse_append,
    List.reverse_reverse]
  rfl

/-- The line of a byte offset and the offset at which that line starts, counted from a line and an
offset that are known. -/
def lineAt : List Char → (target here line lineStart : Nat) → Nat × Nat
  | [], _, _, line, lineStart => (line, lineStart)
  | c :: cs, target, here, line, lineStart =>
      if target ≤ here then (line, lineStart)
      else
        let next := here + c.utf8Size
        if c == '\n' then lineAt cs target next (line + 1) next
        else lineAt cs target next line lineStart

/-- The line and column of a byte offset, found by going through the text once. -/
def scannedLineColumn (text : String) (offset : Nat) : Nat × Nat :=
  let cs := text.toList
  let offset := min offset (byteLength cs)
  let (line, lineStart) := lineAt cs offset 0 0 0
  (line, ((slice? cs ⟨lineStart, offset⟩).getD []).length)

/-- Up to an offset the line feeds are counted, and the start of the last line is kept. -/
theorem lineAt_append (before front back : List Char) :
    lineAt (front ++ back) (byteLength (before ++ front)) (byteLength before) (before.count '\n')
        (byteLength (earlierLines before)) =
      ((before ++ front).count '\n', byteLength (earlierLines (before ++ front))) := by
  induction front generalizing before with
  | nil => cases back <;> simp [lineAt]
  | cons c front ih =>
      have hnext := ih (before ++ [c])
      rw [List.append_assoc, List.singleton_append, earlierLines_snoc] at hnext
      have hahead : ¬byteLength (before ++ c :: front) ≤ byteLength before := by
        have := c.utf8Size_pos
        rw [byteLength_append, byteLength_cons]
        omega
      rw [List.cons_append, lineAt, if_neg hahead, ← hnext]
      by_cases hc : c = '\n'
      · simp [hc]
      · simp [hc]

theorem slice?_lastLine (front back : List Char) :
    slice? (front ++ back) ⟨byteLength (earlierLines front), byteLength front⟩ =
      some (lastLine front) := by
  have hparts := earlierLines_append_lastLine front
  have hlen : byteLength front = byteLength (earlierLines front) + byteLength (lastLine front) := by
    rw [← byteLength_append, hparts]
  have hle : byteLength (earlierLines front) ≤ byteLength front := by omega
  have hsize :
      byteLength front - byteLength (earlierLines front) = byteLength (lastLine front) := by
    omega
  have htext : front ++ back = earlierLines front ++ (lastLine front ++ back) := by
    rw [← List.append_assoc, hparts]
  rw [slice?, if_pos hle, hsize, htext, dropBytes_append, Option.bind_eq_bind, Option.bind_some,
    takeBytes_append]

/-! ### Line and column -/

theorem scannedLineColumn_append
    {text : String}
    {front back : List Char}
    (h : text.toList = front ++ back) :
    scannedLineColumn text (byteLength front) = (front.count '\n', (lastLine front).length) := by
  have hmin : min (byteLength front) (byteLength text.toList) = byteLength front := by
    rw [h, byteLength_append]
    omega
  have hline : lineAt (front ++ back) (byteLength front) 0 0 0 =
      (front.count '\n', byteLength (earlierLines front)) :=
    lineAt_append [] front back
  simp only [scannedLineColumn, hmin]
  rw [h, hline, slice?_lastLine]
  rfl

theorem scannedLineColumn_of_le
    {text : String}
    {offset : Nat}
    (h : byteLength text.toList ≤ offset) :
    scannedLineColumn text offset = scannedLineColumn text (byteLength text.toList) := by
  simp only [scannedLineColumn, Nat.min_eq_right h, Nat.min_self]

/-- A text that goes on ends on a later line, or on the same line in a later column. -/
theorem lastLine_lt_append
    (front : List Char)
    {middle : List Char}
    (h : middle ≠ []) :
    toLex (front.count '\n', (lastLine front).length) <
      toLex ((front ++ middle).count '\n', (lastLine (front ++ middle)).length) := by
  rw [Prod.Lex.toLex_lt_toLex, List.count_append]
  by_cases hfeed : '\n' ∈ middle
  · have hpos : 0 < middle.count '\n' := List.count_pos_iff.mpr hfeed
    exact .inl (by omega)
  · have hlen : 0 < middle.length := List.length_pos_iff.mpr h
    rw [List.count_eq_zero.mpr hfeed, lastLine_append front hfeed, List.length_append]
    exact .inr ⟨rfl, by omega⟩

/-! ### The last line that starts before an offset -/

/-- The line is the last one that starts at the offset or before it, and it starts at `start`. -/
structure LastStart (starts : List Nat) (offset line start : Nat) : Prop where
  get : starts[line]? = some start
  le : start ≤ offset
  later : ∀ (other : Nat) (s : Nat), line < other → starts[other]? = some s → offset < s

theorem LastStart.unique
    {starts : List Nat}
    {offset line start line' start' : Nat}
    (h : LastStart starts offset line start)
    (h' : LastStart starts offset line' start') :
    line = line' ∧ start = start' := by
  have hle := h.le
  have hle' := h'.le
  rcases Nat.lt_trichotomy line line' with hlt | rfl | hlt
  · have := h.later line' start' hlt h'.get
    omega
  · exact ⟨rfl, Option.some.inj (h.get.symm.trans h'.get)⟩
  · have := h'.later line start hlt h.get
    omega

/-- Going through a text, the line that is kept is the last one that starts before the offset. -/
theorem lastStart_lineAt
    (cs : List Char)
    (offset here : Nat)
    (done : List Nat)
    (start : Nat)
    (h : start ≤ offset) :
    LastStart (done ++ start :: feedEnds here cs) offset
      (lineAt cs offset here done.length start).1 (lineAt cs offset here done.length start).2 := by
  induction cs generalizing here done start with
  | nil =>
      refine ⟨by simp [lineAt], h, ?_⟩
      intro other s hother hs
      have : other < (done ++ [start]).length := (List.getElem?_eq_some_iff.mp hs).1
      simp [lineAt] at this hother
      omega
  | cons c cs ih =>
      rw [lineAt]
      by_cases hpassed : offset ≤ here
      · rw [if_pos hpassed]
        refine ⟨by simp, h, ?_⟩
        intro other s hother hs
        obtain ⟨k, rfl⟩ : ∃ k, other = done.length + (k + 1) := ⟨other - done.length - 1, by omega⟩
        rw [List.getElem?_append_right (by omega), Nat.add_sub_cancel_left,
          List.getElem?_cons_succ] at hs
        have := lt_of_mem_feedEnds (List.mem_of_getElem? hs)
        omega
      · rw [if_neg hpassed]
        by_cases hc : c = '\n'
        · have hnext := ih (here + 1) (done ++ [start]) (here + 1) (by omega)
          subst hc
          simpa [feedEnds, Char.utf8Size] using hnext
        · simpa [feedEnds, hc] using ih (here + c.utf8Size) done start h

/-! ### Looking lines up in a table -/

/-- A value is not found before `lo`, where all are smaller, nor from `hi` on, where all are
greater. -/
structure Between (starts : List Nat) (offset lo hi : Nat) : Prop where
  le : lo ≤ hi
  hi_le : hi ≤ starts.length
  below : ∀ (i s : Nat), i < lo → starts[i]? = some s → s < offset
  above : ∀ (i s : Nat), hi ≤ i → starts[i]? = some s → offset < s

theorem le_of_ascending
    {starts : List Nat}
    (h : starts.Pairwise (· < ·))
    {i j s u : Nat}
    (hij : i ≤ j)
    (hi : starts[i]? = some s)
    (hj : starts[j]? = some u) :
    s ≤ u := by
  obtain ⟨hilt, rfl⟩ := List.getElem?_eq_some_iff.mp hi
  obtain ⟨hjlt, rfl⟩ := List.getElem?_eq_some_iff.mp hj
  rcases Nat.lt_or_eq_of_le hij with hlt | rfl
  · exact Nat.le_of_lt (List.pairwise_iff_getElem.mp h i j hilt hjlt hlt)
  · exact Nat.le_refl _

theorem Between.getElem?_middle
    {starts : List Nat}
    {offset lo hi : Nat}
    (h : Between starts offset lo hi)
    (hlt : lo < hi) :
    starts[lo + (hi - lo) / 2]? = some (starts.getD (lo + (hi - lo) / 2) 0) := by
  have hmiddle : lo + (hi - lo) / 2 < starts.length := by
    have := h.hi_le
    omega
  simp [hmiddle]

/-- Each halving keeps the value between the two positions.  So it is found, or it would have to be
inserted where they meet. -/
theorem bisect_spec
    {starts : List Nat}
    (h : starts.Pairwise (· < ·))
    {offset lo hi : Nat}
    (hbetween : Between starts offset lo hi) :
    (∀ line, bisect starts offset lo hi = .ok line → starts[line]? = some offset) ∧
      ∀ next, bisect starts offset lo hi = .error next → Between starts offset next next := by
  fun_induction bisect starts offset lo hi with
  | case1 lo hi hlt middle heq =>
      refine ⟨?_, by simp⟩
      rintro _ ⟨⟩
      rw [hbetween.getElem?_middle hlt, compare_eq_iff_eq.mp heq]
  | case2 lo hi hlt middle hless ih =>
      have hsmaller : starts.getD middle 0 < offset := compare_lt_iff_lt.mp hless
      refine ih ⟨by omega, hbetween.hi_le, ?_, hbetween.above⟩
      intro i s hi hs
      have := le_of_ascending h (Nat.le_of_lt_succ hi) hs (hbetween.getElem?_middle hlt)
      exact Nat.lt_of_le_of_lt this hsmaller
  | case3 lo hi hlt middle hgreater ih =>
      have hlarger : offset < starts.getD middle 0 := compare_gt_iff_gt.mp hgreater
      have hhi := hbetween.hi_le
      refine ih ⟨by omega, by omega, hbetween.below, ?_⟩
      intro i s hi hs
      have := le_of_ascending h hi (hbetween.getElem?_middle hlt) hs
      exact Nat.lt_of_lt_of_le hlarger this
  | case4 lo hi hdone =>
      obtain rfl : lo = hi := by
        have := hbetween.le
        omega
      refine ⟨by simp, ?_⟩
      rintro _ ⟨⟩
      exact hbetween

namespace LineIndex

/-- If some line starts before an offset, the line of the offset is the last such line. -/
theorem lastStart_lineOf
    (index : LineIndex)
    {offset first : Nat}
    (hfirst : index.starts[0]? = some first)
    (hle : first ≤ offset) :
    ∃ start, LastStart index.starts offset (index.lineOf offset) start := by
  have hall : Between index.starts offset 0 index.starts.length := by
    refine ⟨Nat.zero_le _, Nat.le_refl _, by simp, ?_⟩
    intro i s hi hs
    have := (List.getElem?_eq_some_iff.mp hs).1
    omega
  obtain ⟨hok, herror⟩ := bisect_spec index.ascending hall
  unfold lineOf
  cases hbisect : bisect index.starts offset 0 index.starts.length with
  | ok line =>
      have hfound := hok line hbisect
      refine ⟨offset, hfound, Nat.le_refl _, ?_⟩
      intro other s hother hs
      obtain ⟨hline, rfl⟩ := List.getElem?_eq_some_iff.mp hfound
      obtain ⟨hlt, rfl⟩ := List.getElem?_eq_some_iff.mp hs
      exact List.pairwise_iff_getElem.mp index.ascending line other hline hlt hother
  | error next =>
      have hbetween := herror next hbisect
      have hpos : next ≠ 0 := by
        rintro rfl
        have := hbetween.above 0 first (Nat.le_refl _) hfirst
        omega
      have hlt : next - 1 < index.starts.length := by
        have := hbetween.hi_le
        omega
      have hget := List.getElem?_eq_getElem hlt
      refine ⟨_, hget, Nat.le_of_lt (hbetween.below _ _ (by omega) hget), ?_⟩
      intro other s hother hs
      change next - 1 < other at hother
      exact hbetween.above other s (by omega) hs

end LineIndex

/-- Looking a line up in the table and going through the text give the same. -/
theorem lineColumn_eq_scanned (text : String) (offset : Nat) :
    lineColumn text offset = scannedLineColumn text offset := by
  have hscan := lastStart_lineAt text.toList (min offset (byteLength text.toList)) 0 [] 0
    (Nat.zero_le _)
  obtain ⟨start, hlookup⟩ := (LineIndex.ofText text).lastStart_lineOf rfl
    (Nat.zero_le (min offset (byteLength text.toList)))
  obtain ⟨hline, hstart⟩ := hlookup.unique hscan
  have htext : (LineIndex.ofText text).text = text.toList := rfl
  simp only [lineColumn, LineIndex.lineColumn, scannedLineColumn, htext]
  rw [List.getD_eq_getElem?_getD, hlookup.get, hline, hstart]
  rfl

theorem strictMonoOn_lineColumn (text : String) :
    StrictMonoOn (fun offset => toLex (lineColumn text offset))
      {offset | Syntax.Boundary text.toList offset} := by
  rintro _ ⟨front, back, htext, rfl⟩ _ ⟨front', back', htext', rfl⟩ hlt
  obtain ⟨middle, rfl, rfl⟩ :=
    append_eq_append_of_le (htext.symm.trans htext') (Nat.le_of_lt hlt)
  have hmiddle : middle ≠ [] := by
    rintro rfl
    simp at hlt
  change toLex (lineColumn text (byteLength front)) <
    toLex (lineColumn text (byteLength (front ++ middle)))
  rw [lineColumn_eq_scanned, lineColumn_eq_scanned, scannedLineColumn_append htext,
    scannedLineColumn_append htext']
  exact lastLine_lt_append front hmiddle

/-- The line of an offset between two characters is the number of line feeds before it, and its
column the number of characters behind the last of these, or from the start of the text.  An offset
behind the end counts as the end.  So a later offset has a later line, or the same line and a later
column; and going through the text once gives the same answers as the table of line starts. -/
theorem lineColumn_counts (text : String) :
    (∀ front back, text.toList = front ++ back →
      lineColumn text (byteLength front) = (front.count '\n', (lastLine front).length)) ∧
    (∀ offset, byteLength text.toList ≤ offset →
      lineColumn text offset = (text.toList.count '\n', (lastLine text.toList).length)) ∧
    StrictMonoOn (fun offset => toLex (lineColumn text offset))
      {offset | Syntax.Boundary text.toList offset} ∧
    ∀ offset, (LineIndex.ofText text).lineColumn offset = scannedLineColumn text offset := by
  refine ⟨?_, ?_, strictMonoOn_lineColumn text, lineColumn_eq_scanned text⟩
  · intro front back h
    rw [lineColumn_eq_scanned, scannedLineColumn_append h]
  · intro offset h
    rw [lineColumn_eq_scanned, scannedLineColumn_of_le h,
      scannedLineColumn_append (List.append_nil _).symm]

/-- A line that begins with a character of two bytes, and an offset behind the end. -/
theorem lineColumn_counts_accented :
    lineColumn "a\né b" 5 = (1, 2) ∧ lineColumn "a\né b" 2 = (1, 0) ∧
      lineColumn "a\né b" 99 = (1, 3) ∧
      toLex (lineColumn "a\né b" 2) < toLex (lineColumn "a\né b" 5) := by
  obtain ⟨hfront, hbehind, hmono, -⟩ := lineColumn_counts "a\né b"
  exact ⟨hfront ['a', '\n', 'é', ' '] ['b'] rfl, hfront ['a', '\n'] ['é', ' ', 'b'] rfl,
    hbehind 99 (by decide),
    hmono ⟨['a', '\n'], ['é', ' ', 'b'], rfl, rfl⟩ ⟨['a', '\n', 'é', ' '], ['b'], rfl, rfl⟩
      (by decide)⟩

end Text
end EsModules
