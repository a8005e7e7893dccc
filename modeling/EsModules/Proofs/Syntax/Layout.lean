import EsModules.Proofs.Syntax.Gap
import EsModules.Proofs.Syntax.Statements
import EsModules.Syntax.Program

/-!
# The layout of a module

The statements of a module follow one another in its text, each with its identifiers inside, and
all of them stand behind the hashbang line.  So no two identifiers share a byte.  Between two
statements there is nothing but a gap, and the whole text behind the hashbang is read as gaps and
tokens (`Program.lexed_of_parse`).
-/

namespace EsModules
namespace Syntax

open Text ParseState

/-- Every production of the grammar passes the identifiers of its result in order. -/
theorem inOrder_grammar (text : List Char) (depth : Nat) : (grammar depth).InOrder text := by
  induction depth with
  | zero =>
      exact
        { assignment := fun _ => .refuse
          binary := fun _ _ => .refuse
          unary := fun _ => .refuse
          operand := fun _ => .refuse
          callee := fun _ => .refuse
          pattern := fun _ => .refuse
          statement := fun _ _ => .refuse }
  | succ depth ih =>
      exact
        { assignment := Parser.reads_assignment ih
          binary := Parser.reads_binary ih
          unary := Parser.reads_unary ih
          operand := Parser.reads_operand ih
          callee := Parser.reads_callee ih
          pattern := Parser.reads_pattern ih
          statement := Parser.reads_statement ih }

/-- The statements follow one another between `lo` and `hi`. -/
def Laid (text : List Char) : Nat → List Item → Nat → Prop
  | lo, [], hi => lo ≤ hi
  | lo, item :: rest, hi => item.Placed text lo ∧ Laid text item.span.stop rest hi

namespace Laid

variable {text : List Char}

theorem snoc
    {lo mid hi : Nat}
    {items : List Item}
    {item : Item}
    (h : Laid text lo items mid)
    (hitem : item.Placed text mid)
    (hstop : item.span.stop ≤ hi) :
    Laid text lo (items ++ [item]) hi := by
  induction items generalizing lo with
  | nil => exact ⟨hitem.mono h, hstop⟩
  | cons first items ih => exact ⟨h.1, ih h.2⟩

theorem of_append
    {lo hi : Nat}
    {xs ys : List Item}
    (h : Laid text lo (xs ++ ys) hi) :
    ∃ mid, Laid text lo xs mid ∧ Laid text mid ys hi := by
  induction xs generalizing lo with
  | nil => exact ⟨lo, Nat.le_refl _, h⟩
  | cons first xs ih =>
      obtain ⟨mid, hxs, hys⟩ := ih h.2
      exact ⟨mid, ⟨h.1, hxs⟩, hys⟩

theorem le
    {lo hi : Nat}
    {items : List Item}
    (h : Laid text lo items hi) :
    lo ≤ hi := by
  induction items generalizing lo with
  | nil => exact h
  | cons item items ih =>
      obtain ⟨hitem, hrest⟩ := h
      exact Nat.le_trans hitem.lo_le_stop (ih hrest)

theorem placed
    {lo hi : Nat}
    {items : List Item}
    (h : Laid text lo items hi)
    {item : Item}
    (hmem : item ∈ items) :
    item.Placed text lo ∧ item.span.stop ≤ hi := by
  induction items generalizing lo with
  | nil => simp at hmem
  | cons first items ih =>
      obtain ⟨hfirst, hrest⟩ := h
      rcases List.mem_cons.mp hmem with rfl | hmem
      · exact ⟨hfirst, hrest.le⟩
      · obtain ⟨hplaced, hstop⟩ := ih hrest hmem
        exact ⟨hplaced.mono hfirst.lo_le_stop, hstop⟩

theorem pairwise
    {lo hi : Nat}
    {items : List Item}
    (h : Laid text lo items hi) :
    items.Pairwise fun x y => x.span.stop ≤ y.span.start := by
  induction items generalizing lo with
  | nil => exact .nil
  | cons item items ih => exact .cons (fun _ hmem => (h.2.placed hmem).1.lo_le) (ih h.2)

/-- The identifiers of all statements follow one another. -/
theorem spread
    {lo hi : Nat}
    {items : List Item}
    (h : Laid text lo items hi) :
    Spread text lo hi (spansOf (items.flatMap Item.code)) := by
  induction items generalizing lo with
  | nil => exact .nil
  | cons item items ih =>
      obtain ⟨hitem, hrest⟩ := h
      rw [List.flatMap_cons, spansOf_append]
      exact hitem.spread.append (ih hrest) hitem.lo_le_stop (Nat.le_refl _) hrest.le

end Laid

/-- The statement comes behind a gap from `lo` to `begin`.  Only decorators of an export stand
between the gap and the statement itself. -/
structure Item.Follows (text : List Char) (lo begin : Nat) (item : Item) : Prop where
  gap : GapTo text lo begin
  placed : item.Placed text begin
  shaped : item.Shaped
  begin_lt : begin < item.span.stop
  start :
    item.span.start = begin ∨
      ((∃ front back, text = front ++ '@' :: back ∧ byteLength front = begin) ∧
        ∀ x ∈ spansOf item.code, begin < x.start)
  isExport : begin < item.span.start → item.IsExport

/-- A statement that is no export begins with its first token. -/
theorem Item.Follows.start_eq
    {text : List Char}
    {lo begin : Nat}
    {item : Item}
    (h : item.Follows text lo begin)
    (hitem : ¬item.IsExport) :
    item.span.start = begin :=
  Nat.le_antisymm (Nat.not_lt.mp fun hlt => hitem (h.isExport hlt)) h.placed.lo_le

/-- A statement takes some of the text. -/
theorem Item.Follows.start_lt
    {text : List Char}
    {lo begin : Nat}
    {item : Item}
    (h : item.Follows text lo begin) :
    item.span.start < item.span.stop := by
  by_cases hexport : item.IsExport
  · -- an export begins with a word of its own
    have hinner := h.placed.inner_le
    have hstop := h.placed.stop_le
    have hshaped := h.shaped
    cases item with
    | imports => exact hshaped
    | exportDeclaration span inner =>
        exact Nat.lt_of_lt_of_le hshaped (Nat.le_trans hinner hstop)
    | exportList => exact hshaped
    | exportFrom => exact hshaped
    | exportDefault span inner value =>
        have hlt : span.start < inner.start := by
          cases value with
          | function => exact hshaped.1
          | classDef => exact hshaped.1
          | _ => exact hshaped
        exact Nat.lt_of_lt_of_le hlt (Nat.le_trans hinner hstop)
    | exportAll => exact hshaped
    | statement => exact hexport.elim
  · rw [h.start_eq hexport]
    exact h.begin_lt

/-- Nothing but gaps lies between the statements from `lo` to `hi`. -/
def Spaced (text : List Char) : Nat → List Item → Nat → Prop
  | lo, [], hi => lo = hi
  | lo, item :: rest, hi =>
      (∃ begin, item.Follows text lo begin) ∧ Spaced text item.span.stop rest hi

namespace Spaced

variable {text : List Char}

theorem snoc
    {lo mid : Nat}
    {items : List Item}
    {item : Item}
    (h : Spaced text lo items mid)
    (hitem : ∃ begin, item.Follows text mid begin) :
    Spaced text lo (items ++ [item]) item.span.stop := by
  induction items generalizing lo with
  | nil =>
      obtain rfl : lo = mid := h
      exact ⟨hitem, rfl⟩
  | cons first items ih => exact ⟨h.1, ih h.2⟩

theorem of_append
    {lo hi : Nat}
    {xs ys : List Item}
    (h : Spaced text lo (xs ++ ys) hi) :
    ∃ mid, Spaced text lo xs mid ∧ Spaced text mid ys hi := by
  induction xs generalizing lo with
  | nil => exact ⟨lo, rfl, h⟩
  | cons first xs ih =>
      obtain ⟨mid, hxs, hys⟩ := ih h.2
      exact ⟨mid, ⟨h.1, hxs⟩, hys⟩

theorem laid
    {lo hi : Nat}
    {items : List Item}
    (h : Spaced text lo items hi) :
    Laid text lo items hi := by
  induction items generalizing lo with
  | nil => exact Nat.le_of_eq h
  | cons item items ih =>
      obtain ⟨⟨begin, hitem⟩, hrest⟩ := h
      exact ⟨hitem.placed.mono hitem.gap.le, ih hrest⟩

theorem shaped
    {lo hi : Nat}
    {items : List Item}
    {item : Item}
    (h : Spaced text lo items hi)
    (hitem : item ∈ items) :
    item.Shaped := by
  induction items generalizing lo with
  | nil => cases hitem
  | cons first items ih =>
      obtain ⟨⟨begin, hfirst⟩, hrest⟩ := h
      rcases List.mem_cons.mp hitem with rfl | hitem
      · exact hfirst.shaped
      · exact ih hrest hitem

/-- Statements that follow one another from `lo` on begin there or behind. -/
theorem follows_of_mem
    {lo hi : Nat}
    {items : List Item}
    {item : Item}
    (h : Spaced text lo items hi)
    (hitem : item ∈ items) :
    ∃ before begin, item.Follows text before begin ∧ lo ≤ begin := by
  induction items generalizing lo with
  | nil => cases hitem
  | cons first items ih =>
      obtain ⟨⟨begin, hfollows⟩, hrest⟩ := h
      rcases List.mem_cons.mp hitem with rfl | hitem
      · exact ⟨lo, begin, hfollows, hfollows.gap.le⟩
      · obtain ⟨before, begin', hfollows', hle⟩ := ih hrest hitem
        have hfirst := hfollows.gap.le
        have hstop := hfollows.begin_lt
        exact ⟨before, begin', hfollows', by omega⟩

/-- The statements end with the last one. -/
theorem stop_of_getLast?
    {lo hi : Nat}
    {items : List Item}
    {item : Item}
    (h : Spaced text lo items hi)
    (hlast : items.getLast? = some item) :
    item.span.stop = hi := by
  induction items generalizing lo with
  | nil => cases hlast
  | cons first items ih =>
      cases items with
      | nil =>
          cases hlast
          exact h.2
      | cons second items => exact ih h.2 hlast

end Spaced

/-- The end of the text is reached behind a gap. -/
theorem ParseState.Good.start_of_finish
    {text : List Char}
    {s : ParseState}
    (hs : s.Good text)
    (hfinish : s.token.kind = .finish) :
    s.token.span.start = byteLength text := by
  obtain ⟨front, rest, t, behind, htext, hlen, hread, hstart, hsame⟩ := hs.fresh
  rcases hsame with ⟨rfl, -⟩ | ⟨-, -, hnot⟩
  · unfold Token.read at hread
    simp only [Option.bind_eq_bind, Option.bind_eq_some_iff] at hread
    obtain ⟨⟨found, here⟩, hskip, hhere⟩ := hread
    obtain ⟨gap, hgap, hoffset⟩ := passes_skipGap hskip
    have hrest : here.rest = [] := Token.rest_of_finish hhere hfinish
    simp only at hgap hoffset
    rw [(Token.covers_readHere hhere).start, hoffset, htext, hgap, hrest, List.append_nil,
      byteLength_append, hlen]
  · exact absurd hfinish hnot

/-- A statement that is read follows the last token. -/
theorem Parser.Stands.follows
    {text : List Char}
    {s s' : ParseState}
    {item : Item}
    (h : Parser.Stands text s s' item)
    (hs : s.Good text)
    (hkind : s.token.kind ≠ .finish) :
    item.Follows text s.lastEnd s.token.span.start := by
  refine ⟨hs.gapTo, h.placed, h.shaped, ?_, ?_, h.isExport⟩
  · rw [h.stop]
    exact h.step.moved hkind (.inl rfl)
  · refine h.start.imp_right fun ⟨hmark, hcode⟩ => ⟨?_, hcode⟩
    simp only [Token.isMark, Bool.and_eq_true, beq_iff_eq] at hmark
    obtain ⟨front, htext, hlen⟩ := hs.mark hmark.1
    refine ⟨front, s.behind.rest, ?_, hlen⟩
    rw [htext, hmark.2]
    simp

/-- The statement begins and ends at places that are reached from the byte `lo`, and the last token
of it does not end a line. -/
structure Item.Reached (text : List Char) (lo : Nat) (item : Item) : Prop where
  start : ∃ comments, Lexed text lo item.span.start comments
  stop : ∃ comments, Lexed text lo item.span.stop comments
  stops : StopsInLine text item.span.stop

theorem Parser.Stands.reachedFrom
    {text : List Char}
    {s₀ s s' : ParseState}
    {k : Trail}
    {item : Item}
    (h : Parser.Stands text s s' item)
    (h₀ : Step text s₀ s k)
    (hkind : s.token.kind ≠ .finish) :
    item.Reached text s₀.lastEnd where
  start := h₀.reached h.reached
  stop := by
    rw [h.stop]
    exact h₀.reached h.step.lexed
  stops := by
    have hlast := h₀.good.last_le
    have hmoved := h.step.moved hkind (.inl rfl)
    rw [h.stop]
    exact h.step.stops.resolve_left (by omega)

/-- A line terminator at the beginning belongs to the gap before a token. -/
theorem Token.le_start_of_newline
    {limit offset : Nat}
    {c : Char}
    {rest : List Char}
    {t : Token}
    {behind : Cursor}
    (hline : isLineTerminator c = true)
    (h : Token.read limit ⟨offset, c :: rest⟩ = some (t, behind)) :
    offset + c.utf8Size ≤ t.span.start := by
  unfold Token.read at h
  simp only [Option.bind_eq_bind, Option.bind_eq_some_iff] at h
  obtain ⟨⟨newline, here⟩, hgap, h⟩ := h
  rw [skipGap_line hline] at hgap
  rw [(covers_readHere h).start]
  exact (passes_skipGap hgap).le

namespace Program

/-- The parts of a module follow one another in the text: the hashbang, the directives, which lie
between `first` and `middle`, and the other statements up to `last`. -/
structure LaidOut (text : List Char) (program : Program) (first middle last : Nat) : Prop where
  hashbang :
    ∀ span, program.hashbang = some span →
      span.start = 0 ∧ span.stop ≤ first ∧ Boundary text span.stop
  newline :
    ∀ span, program.hashbang = some span →
      ∀ front c back, isLineTerminator c = true → text = front ++ c :: back →
        byteLength front = span.stop → span.stop + c.utf8Size ≤ first
  directives :
    ∀ d ∈ program.directives,
      first ≤ d.start ∧ d.start ≤ d.stop ∧ d.stop ≤ middle ∧ Boundary text d.stop
  first_le : first ≤ middle
  items : Laid text middle program.items last
  last_le : last ≤ byteLength text
  /-- All places fit in 32 bits. -/
  fits : byteLength text ≤ maxBytes

theorem laid_statements
    {text : List Char}
    {depth : Nat}
    {s : ParseState}
    (hs : s.Good text) :
    Parser.Yields s (statements (grammar (depth + 1))) fun items s' =>
      Laid text s.token.span.start items s'.token.span.start ∧
        Spaced text s.lastEnd items s'.lastEnd ∧ s'.Good text ∧ s'.token.kind = .finish := by
  refine .loop (fun acc s' =>
      Laid text s.token.span.start acc.reverse s'.token.span.start ∧
        Spaced text s.lastEnd acc.reverse s'.lastEnd ∧ s'.Good text)
    ⟨Nat.le_refl _, rfl, hs⟩ fun acc s₁ ⟨hlaid, hspaced, hs₁⟩ => .token ?_
  split
  · rename_i hfinish
    exact .pure ⟨hlaid, hspaced, hs₁, beq_iff_eq.mp hfinish⟩
  · rename_i hmore
    refine (Parser.stands_statement (inOrder_grammar text depth) hs₁ .module .list).bind ?_
    intro item s₂ hitem
    have hkind : s₁.token.kind ≠ .finish := fun hfinish => hmore (beq_iff_eq.mpr hfinish)
    refine .pure ⟨?_, ?_, hitem.step.good⟩
    · rw [List.reverse_cons]
      exact hlaid.snoc hitem.placed (by rw [hitem.stop]; exact hitem.step.good.last_le)
    · rw [List.reverse_cons, ← hitem.stop]
      exact hspaced.snoc ⟨_, hitem.follows hs₁ hkind⟩

/-- All statements are reached, and so is the end of the text. -/
theorem reached_statements
    {text : List Char}
    {depth : Nat}
    {s : ParseState}
    (hs : s.Good text) :
    Parser.Yields s (statements (grammar (depth + 1))) fun items _ =>
      (∀ item ∈ items, item.Reached text s.lastEnd) ∧
        ∃ comments, Lexed text s.lastEnd (byteLength text) comments := by
  refine .loop (fun acc s' => (∀ item ∈ acc, item.Reached text s.lastEnd) ∧ Step text s s' .empty)
    ⟨by simp, .refl hs⟩ fun acc s₁ ⟨hacc, hstep⟩ => .token ?_
  split
  · rename_i hfinish
    refine .pure ⟨by simpa using hacc, ?_⟩
    rw [← hstep.good.start_of_finish (beq_iff_eq.mp hfinish)]
    exact hstep.reached hstep.good.reached
  · rename_i hmore
    refine (Parser.stands_statement (inOrder_grammar text depth) hstep.good .module .list).bind ?_
    intro item s₂ hitem
    have hkind : s₁.token.kind ≠ .finish := fun hfinish => hmore (beq_iff_eq.mpr hfinish)
    refine .pure ⟨?_, (hstep.trans hitem.step).mono (by simp)⟩
    exact List.forall_mem_cons.mpr ⟨hitem.reachedFrom hstep hkind, hacc⟩

theorem hashbang?_at (text : List Char) :
    (hashbang? text).2.At text ∧
      ∀ span, (hashbang? text).1 = some span → span = ⟨0, (hashbang? text).2.offset⟩ := by
  unfold hashbang?
  split
  · rename_i rest
    refine ⟨?_, by simp⟩
    have hstart : Cursor.At ('#' :: '!' :: rest) ⟨2, rest⟩ := ⟨['#', '!'], rfl, rfl⟩
    exact hstart.passes (passes_lineEnd 2 rest)
  · exact ⟨⟨[], rfl, rfl⟩, by simp⟩

/-- Only a hashbang takes bytes at the front. -/
theorem offset_hashbang? (cs : List Char) :
    (hashbang? cs).2.offset = 0 ↔ (hashbang? cs).1 = none := by
  unfold hashbang?
  split
  · rename_i rest
    have hle : 2 ≤ (lineEnd 2 rest).offset := (passes_lineEnd 2 rest).le
    simp only [reduceCtorEq, iff_false]
    omega
  · simp [Cursor.start]

/-- The statements that a text is read as, from the state at its first token. -/
theorem parse_eq_ok
    {text : String}
    {program : Program}
    (h : parse text = .ok program) :
    ∃ (depth : Nat) (t : Token) (behind : Cursor) (items : List Item) (s' : ParseState),
      byteLength text.toList ≤ maxBytes ∧
      Token.read (text.toList.length + 2) (hashbang? text.toList).2 = some (t, behind) ∧
      statements (grammar (depth + 1))
        ⟨t, behind, (hashbang? text.toList).2.offset, text.toList.length + 2, [], []⟩ =
          .ok (items, s') ∧
      program =
        ⟨(hashbang? text.toList).1, (items.takeWhile isDirective).map Item.span,
          items.dropWhile isDirective⟩ := by
  have hfits : byteLength text.toList ≤ maxBytes := by
    by_contra hlong
    have hrefused : parse text = .error ⟨0, []⟩ := by
      rw [parse, if_pos (Nat.not_le.mp hlong)]
      rfl
    cases hrefused.symm.trans h
  rw [parse, if_neg (Nat.not_lt.mpr hfits)] at h
  simp only at h
  split at h
  · cases h
  · rename_i t behind hread
    cases hrun : statements (grammar (8 * (text.toList.length + 2)))
        ⟨t, behind, (hashbang? text.toList).2.offset, text.toList.length + 2, [], []⟩ with
    | error fault =>
        rw [StateT.run, hrun] at h
        cases h
    | ok r =>
        obtain ⟨items, s'⟩ := r
        rw [StateT.run, hrun] at h
        refine ⟨8 * (text.toList.length + 1) + 7, t, behind, items, s', hfits, hread, hrun, ?_⟩
        change (if _ then _ else if _ then _ else _) = _ at h
        split at h
        · cases h
        · split at h
          · cases h
          · cases h
            rfl

/-- Every module that is read has its parts in order. -/
theorem laidOut_of_parse
    {text : String}
    {program : Program}
    (h : parse text = .ok program) :
    ∃ first middle last, program.LaidOut text.toList first middle last := by
  obtain ⟨depth, t, behind, items, s', hfits, hread, hrun, rfl⟩ := parse_eq_ok h
  obtain ⟨hat, hspan⟩ := hashbang?_at text.toList
  obtain ⟨hgood, hfirst⟩ := Good.read
    ⟨t, behind, (hashbang? text.toList).2.offset, text.toList.length + 2, [], []⟩ hat hread rfl
  obtain ⟨hlaid, -, hgood', -⟩ := laid_statements hgood items s' hrun
  rw [← List.takeWhile_append_dropWhile (p := isDirective) (l := items)] at hlaid
  obtain ⟨middle, hdirectives, hitems⟩ := hlaid.of_append
  refine ⟨t.span.start, middle, s'.token.span.start, ?_⟩
  refine
    { hashbang := ?_
      newline := ?_
      directives := ?_
      first_le := hdirectives.le
      items := hitems
      last_le := hgood'.start.le_byteLength
      fits := hfits }
  · intro span hbang
    obtain rfl := hspan span hbang
    exact ⟨rfl, hfirst, hat.boundary⟩
  · intro span hbang front c back hline htext hlen
    obtain rfl := hspan span hbang
    obtain ⟨front', htext', hlen'⟩ := hat
    obtain ⟨-, hrest⟩ := append_inj_of_byteLength (htext'.symm.trans htext) (hlen'.trans hlen.symm)
    have hcursor : (hashbang? text.toList).2 = ⟨(hashbang? text.toList).2.offset, c :: back⟩ := by
      rw [← hrest]
    rw [hcursor] at hread
    exact Token.le_start_of_newline hline hread
  · intro d hd
    obtain ⟨item, hmem, rfl⟩ := List.mem_map.mp hd
    obtain ⟨hplaced, hstop⟩ := hdirectives.placed hmem
    exact ⟨hplaced.lo_le,
      Nat.le_trans (Nat.le_trans hplaced.start_le hplaced.inner_le) hplaced.stop_le, hstop,
      hplaced.wholeSpan.2⟩

/-- A module is its hashbang and its statements with gaps between them. -/
theorem spaced_of_parse
    {text : String}
    {program : Program}
    (h : parse text = .ok program) :
    ∃ directives last,
      program.directives = directives.map Item.span ∧
      (∀ d ∈ directives, isDirective d = true) ∧
      Spaced text.toList (hashbang? text.toList).2.offset (directives ++ program.items) last ∧
      GapTo text.toList last (byteLength text.toList) ∧
      program.hashbang = (hashbang? text.toList).1 := by
  obtain ⟨depth, t, behind, items, s', -, hread, hrun, rfl⟩ := parse_eq_ok h
  obtain ⟨hgood, -⟩ := Good.read
    ⟨t, behind, (hashbang? text.toList).2.offset, text.toList.length + 2, [], []⟩
    (hashbang?_at text.toList).1 hread rfl
  obtain ⟨-, hspaced, hgood', hfinish⟩ := laid_statements hgood items s' hrun
  refine ⟨items.takeWhile isDirective, s'.lastEnd, rfl, ?_, ?_, ?_, rfl⟩
  · intro d hd
    exact List.all_eq_true.mp List.all_takeWhile d hd
  · rw [List.takeWhile_append_dropWhile]
    exact hspaced
  · rw [← hgood'.start_of_finish hfinish]
    exact hgood'.gapTo

/-- The text behind the hashbang is read as gaps and tokens, and the statements of the module begin
and end where tokens do. -/
theorem lexed_of_parse
    {text : String}
    {program : Program}
    (h : parse text = .ok program) :
    ∃ directives,
      program.directives = directives.map Item.span ∧
      (∀ item ∈ directives ++ program.items,
        item.Reached text.toList (hashbang? text.toList).2.offset) ∧
      ∃ comments,
        Lexed text.toList (hashbang? text.toList).2.offset (byteLength text.toList) comments := by
  obtain ⟨depth, t, behind, items, s', -, hread, hrun, rfl⟩ := parse_eq_ok h
  obtain ⟨hgood, -⟩ := Good.read
    ⟨t, behind, (hashbang? text.toList).2.offset, text.toList.length + 2, [], []⟩
    (hashbang?_at text.toList).1 hread rfl
  obtain ⟨hitems, hend⟩ := reached_statements hgood items s' hrun
  refine ⟨items.takeWhile isDirective, rfl, ?_, hend⟩
  rw [List.takeWhile_append_dropWhile]
  exact hitems

end Program
end Syntax
end EsModules
