import EsModules.Proofs.Syntax.Gap

/-!
# Readings of a text

A text is read as tokens with gaps between them, and line comments stand in the gaps.  `Lexed` says
that a text can be read so from one byte to another one, with the places of the line comments on the
way.  There may be several such readings, since a slash begins an operator or a regular expression,
and a closing brace may lead back into a template; which of them is meant is up to the grammar.

In every reading a line comment ends where its line ends, and the next line is reached before the
next token (`Lexed.lineComment`).
-/

namespace EsModules
namespace Syntax

open Text

/-! ### Tokens in a text -/

/-- A token of some kind lies between two bytes.  It is read at its place, or the grammar has it
read on behind a closing brace or a slash. -/
inductive Lexeme (text : List Char) : TokenKind → Nat → Nat → Prop where
  | read
      {limit : Nat}
      {newline : Bool}
      {here behind : Cursor}
      {t : Token}
      (hat : here.At text)
      (hread : Token.readHere limit newline here = some (t, behind))
      (hkind : t.kind ≠ .finish) :
      Lexeme text t.kind here.offset behind.offset
  | template
      {begin : Nat}
      {rest : List Char}
      {stretch : TemplateEnd}
      (hat : Cursor.At text ⟨begin, '\x7d' :: rest⟩)
      (hread : readTemplate false (begin + 1) rest = some stretch) :
      Lexeme text (.template stretch.closed) begin stretch.behind.offset
  | regex
      {begin : Nat}
      {rest : List Char}
      {behind : Cursor}
      (hat : Cursor.At text ⟨begin, '/' :: rest⟩)
      (hread : readRegex ⟨begin + 1, rest⟩ = some behind) :
      Lexeme text .regex begin behind.offset

/-- The text between two bytes has no line terminator. -/
def OneLine (text : List Char) (a b : Nat) : Prop :=
  ∃ front middle back,
    text = front ++ (middle ++ back) ∧ byteLength front = a ∧ byteLength (front ++ middle) = b ∧
    ∀ c ∈ middle, isLineTerminator c = false

/-- The character before a byte does not end a line. -/
def StopsInLine (text : List Char) (b : Nat) : Prop :=
  ∃ front last back,
    text = front ++ last :: back ∧ byteLength front + last.utf8Size = b ∧
    isLineTerminator last = false

namespace Cursor

variable {text : List Char} {c d : Cursor}

theorem Inline.oneLine (h : c.Inline d) (hat : c.At text) : OneLine text c.offset d.offset := by
  obtain ⟨front, htext, hlen⟩ := hat
  obtain ⟨between, hrest, hoffset, hline⟩ := h
  refine ⟨front, between, d.rest, by rw [htext, hrest], hlen, ?_, hline⟩
  rw [byteLength_append, hlen, hoffset]

theorem Stops.stopsInLine (h : c.Stops d) (hat : c.At text) : StopsInLine text d.offset := by
  obtain ⟨front, htext, hlen⟩ := hat
  obtain ⟨between, last, hrest, hoffset, hline⟩ := h
  refine ⟨front ++ between, last, d.rest, ?_, ?_, hline⟩
  · rw [htext, hrest, List.append_assoc]
  · rw [byteLength_append, hlen, hoffset]

end Cursor

namespace Lexeme

variable {text : List Char} {kind : TokenKind} {begin stop : Nat}

theorem of_read
    {limit : Nat}
    {cursor behind : Cursor}
    {t : Token}
    (hat : cursor.At text)
    (hread : Token.read limit cursor = some (t, behind))
    (hkind : t.kind ≠ .finish) :
    Lexeme text t.kind t.span.start t.span.stop := by
  unfold Token.read at hread
  simp only [Option.bind_eq_bind, Option.bind_eq_some_iff] at hread
  obtain ⟨⟨found, here⟩, hskip, hhere⟩ := hread
  have hcovers := Token.covers_readHere hhere
  rw [hcovers.start, hcovers.stop]
  exact .read (hat.passes (passes_skipGap hskip)) hhere hkind

/-- The token takes some characters, and the last one does not end a line. -/
theorem stops (h : Lexeme text kind begin stop) :
    ∃ rest behind, Cursor.At text ⟨begin, rest⟩ ∧ Cursor.Stops ⟨begin, rest⟩ behind ∧
      behind.offset = stop := by
  cases h with
  | read hat hread hkind =>
      exact ⟨_, _, hat, (Token.covers_readHere hread).stops hkind, rfl⟩
  | template hat hread =>
      exact ⟨_, _, hat, Cursor.Passes.char.stops (stops_readTemplate hread), rfl⟩
  | @regex begin rest behind hat hread =>
      have hslash : (⟨begin, '/' :: rest⟩ : Cursor).Inline ⟨begin + 1, rest⟩ := .char rfl
      have hbody := inline_readRegex hread
      exact ⟨_, _, hat, (hslash.trans hbody).stops hbody.passes.le, rfl⟩

theorem le (h : Lexeme text kind begin stop) : begin ≤ stop := by
  obtain ⟨rest, behind, -, hstops, rfl⟩ := h.stops
  exact hstops.passes.le

/-- No token has a line terminator at its end. -/
theorem stopsInLine (h : Lexeme text kind begin stop) : StopsInLine text stop := by
  obtain ⟨rest, behind, hat, hstops, rfl⟩ := h.stops
  exact hstops.stopsInLine hat

/-- A word does not go over a line. -/
theorem oneLine (h : Lexeme text .word begin stop) : OneLine text begin stop := by
  generalize hword : TokenKind.word = kind at h
  cases h with
  | read hat hread => exact ((Token.covers_readHere hread).word hword.symm).oneLine hat
  | template => cases hword
  | regex => cases hword

/-- A token that begins with an opening parenthesis is a punctuator. -/
theorem eq_mark
    {rest : List Char}
    (h : Lexeme text kind begin stop)
    (hat : Cursor.At text ⟨begin, '(' :: rest⟩) :
    kind = .mark := by
  obtain ⟨front, htext, hlen⟩ := hat
  have hsame : ∀ rest', Cursor.At text ⟨begin, rest'⟩ → rest' = '(' :: rest := by
    rintro rest' ⟨front', htext', hlen'⟩
    exact (append_inj_of_byteLength (htext'.symm.trans htext) (hlen'.trans hlen.symm)).2
  cases h with
  | @read limit newline here behind t hat hread hkind =>
      obtain ⟨offset, rest'⟩ := here
      obtain rfl := hsame rest' hat
      cases hread
      rfl
  | template hat hread => cases hsame _ hat
  | regex hat hread => cases hsame _ hat

end Lexeme

/-! ### Line comments -/

/-- The places of the line comments in a gap, without the terminators of their lines.  The comment
that is being passed has begun at the byte `begin`. -/
def lineComments : GapPart → Nat → Nat → List Char → List Span
  | .space, _, offset, '/' :: '/' :: rest => lineComments .lineComment offset (offset + 2) rest
  | .space, begin, offset, '/' :: '*' :: rest => lineComments .blockComment begin (offset + 2) rest
  | .space, begin, offset, c :: rest =>
      if isLineTerminator c || isSpace c then lineComments .space begin (offset + c.utf8Size) rest
      else []
  | .lineComment, begin, offset, c :: rest =>
      if isLineTerminator c then
        ⟨begin, offset⟩ :: lineComments .space begin (offset + c.utf8Size) rest
      else lineComments .lineComment begin (offset + c.utf8Size) rest
  | .lineComment, begin, offset, [] => [⟨begin, offset⟩]
  | .blockComment, begin, offset, '*' :: '/' :: rest =>
      lineComments .space begin (offset + 2) rest
  | .blockComment, begin, offset, c :: rest =>
      lineComments .blockComment begin (offset + c.utf8Size) rest
  | _, _, _, [] => []

/-- The span is that of a line comment between two bytes of a text: two slashes and what follows
them in their line.  The terminator of the line lies between the bytes as well, unless the text is
over. -/
structure LineComment (text : List Char) (lo hi : Nat) (comment : Span) : Prop where
  lo_le : lo ≤ comment.start
  stop_le : comment.stop ≤ hi
  line :
    ∃ front body back,
      text = front ++ ('/' :: '/' :: body) ++ back ∧ byteLength front = comment.start ∧
      byteLength (front ++ ('/' :: '/' :: body)) = comment.stop ∧
      (∀ c ∈ body, isLineTerminator c = false) ∧
      ∀ c ∈ back.head?, isLineTerminator c = true ∧ comment.stop + c.utf8Size ≤ hi

theorem LineComment.mono
    {text : List Char}
    {lo lo' hi hi' : Nat}
    {comment : Span}
    (h : LineComment text lo hi comment)
    (hlo : lo' ≤ lo)
    (hhi : hi ≤ hi') :
    LineComment text lo' hi' comment := by
  obtain ⟨front, body, back, htext, hstart, hstop, hbody, hback⟩ := h.line
  refine ⟨Nat.le_trans hlo h.lo_le, Nat.le_trans h.stop_le hhi, front, body, back, htext, hstart,
    hstop, hbody, fun c hc => ?_⟩
  exact ⟨(hback c hc).1, Nat.le_trans (hback c hc).2 hhi⟩

/-- What has been passed of a text before a part of a gap.  In a line comment, its beginning comes
last. -/
def Entered (lo begin : Nat) (done : List Char) : GapPart → Prop
  | .lineComment =>
      lo ≤ begin ∧ ∃ front body, done = front ++ '/' :: '/' :: body ∧ byteLength front = begin ∧
        ∀ c ∈ body, isLineTerminator c = false
  | _ => lo ≤ byteLength done

theorem lineComment_of_mem
    {text : List Char}
    {part : GapPart}
    {newline found : Bool}
    {lo begin offset : Nat}
    {done cs : List Char}
    {here : Cursor}
    (h : skipGap part newline offset cs = some (found, here))
    (htext : text = done ++ cs)
    (hoffset : byteLength done = offset)
    (hentered : Entered lo begin done part)
    {comment : Span}
    (hcomment : comment ∈ lineComments part begin offset cs) :
    LineComment text lo here.offset comment := by
  -- every character that is passed moves to what is done
  have move : ∀ done passed rest : List Char, text = done ++ (passed ++ rest) →
      text = (done ++ passed) ++ rest := by
    simp
  fun_induction skipGap part newline offset cs generalizing begin done with
  | case1 newline offset rest ih =>
      refine ih h (move done ['/', '/'] _ htext) (by rw [byteLength_append, hoffset]; rfl) ?_
        hcomment
      exact ⟨hoffset ▸ hentered, done, [], rfl, hoffset, by simp⟩
  | case2 newline offset rest ih =>
      refine ih h (move done ['/', '*'] _ htext) (by rw [byteLength_append, hoffset]; rfl) ?_
        hcomment
      exact Nat.le_trans hentered (by simp)
  | case3 newline offset c rest hslash hstar hline ih =>
      rw [lineComments, if_pos (by simp [hline])] at hcomment
      · refine ih h (move done [c] _ htext) (by simp [hoffset]) ?_ hcomment
        exact Nat.le_trans hentered (by simp)
      · exact hslash
      · exact hstar
  | case4 newline offset c rest hslash hstar hline hspace ih =>
      rw [lineComments, if_pos (by simp [hspace])] at hcomment
      · refine ih h (move done [c] _ htext) (by simp [hoffset]) ?_ hcomment
        exact Nat.le_trans hentered (by simp)
      · exact hslash
      · exact hstar
  | case5 newline offset c rest hslash hstar hline hspace =>
      rw [lineComments, if_neg (by simp [hline, hspace])] at hcomment
      · cases hcomment
      · exact hslash
      · exact hstar
  | case6 newline offset c rest hline ih =>
      rw [lineComments, if_pos hline] at hcomment
      obtain ⟨hlo, front, body, rfl, hbegin, hbody⟩ := hentered
      rcases List.mem_cons.mp hcomment with rfl | hcomment
      · -- the comment ends here, and the gap goes on behind the terminator
        have hle : offset + c.utf8Size ≤ here.offset := (passes_skipGap h).le
        refine ⟨hlo, Nat.le_trans (Nat.le_add_right _ _) hle, front, body, c :: rest, htext, hbegin,
          hoffset, hbody, ?_⟩
        simpa using ⟨hline, hle⟩
      · refine ih h (move _ [c] _ htext)
          (by simp [← hoffset, Nat.add_assoc]) ?_ hcomment
        simp only [Entered, byteLength_append, hbegin]
        omega
  | case7 newline offset c rest hline ih =>
      rw [lineComments, if_neg hline] at hcomment
      obtain ⟨hlo, front, body, rfl, hbegin, hbody⟩ := hentered
      refine ih h (move _ [c] _ htext)
        (by simp [← hoffset, Nat.add_assoc]) ?_ hcomment
      refine ⟨hlo, front, body ++ [c], by simp, hbegin, ?_⟩
      rw [List.forall_mem_append, List.forall_mem_singleton]
      exact ⟨hbody, Bool.eq_false_iff.mpr hline⟩
  | case8 newline offset rest ih =>
      refine ih h (move done ['*', '/'] _ htext) (by rw [byteLength_append, hoffset]; rfl) ?_
        hcomment
      exact Nat.le_trans hentered (by simp)
  | case9 newline offset c rest hopen ih =>
      rw [lineComments] at hcomment
      · refine ih h (move done [c] _ htext) (by simp [hoffset]) ?_ hcomment
        exact Nat.le_trans hentered (by simp)
      · exact hopen
  | case10 => cases h
  | case11 part newline offset hblock =>
      cases h
      cases part with
      | space => cases hcomment
      | lineComment =>
          obtain rfl := List.mem_singleton.mp hcomment
          obtain ⟨hlo, front, body, rfl, hbegin, hbody⟩ := hentered
          exact ⟨hlo, Nat.le_refl _, front, body, [], htext, hbegin, hoffset, hbody, by simp⟩
      | blockComment => exact (hblock rfl).elim

/-! ### Readings -/

/-- A gap lies between two bytes of a text, with line comments at some places. -/
def Gap (text : List Char) (lo hi : Nat) (comments : List Span) : Prop :=
  ∃ front gap rest found,
    text = front ++ gap ++ rest ∧ byteLength front = lo ∧ byteLength (front ++ gap) = hi ∧
    skipGap .space false lo (gap ++ rest) = some (found, ⟨hi, rest⟩) ∧
    lineComments .space lo lo (gap ++ rest) = comments

/-- The text is read as gaps and tokens from the byte `lo` on, with line comments at some places. -/
inductive Lexed (text : List Char) (lo : Nat) : Nat → List Span → Prop where
  | start : Lexed text lo lo []
  | gap
      {mid hi : Nat}
      {comments more : List Span}
      (h : Lexed text lo mid comments)
      (hgap : Gap text mid hi more) :
      Lexed text lo hi (comments ++ more)
  /-- A token is read where no gap begins. -/
  | token
      {begin stop : Nat}
      {kind : TokenKind}
      {comments : List Span}
      (h : Lexed text lo begin comments)
      (hgap : GapTo text begin begin)
      (htoken : Lexeme text kind begin stop) :
      Lexed text lo stop comments

variable {text : List Char} {lo mid hi : Nat} {comments more : List Span}

theorem GapTo.gap (h : GapTo text lo hi) : ∃ comments, Gap text lo hi comments := by
  obtain ⟨front, gap, rest, found, htext, hlo, hhi, hskip⟩ := h
  exact ⟨_, front, gap, rest, found, htext, hlo, hhi, hskip, rfl⟩

theorem Gap.gapTo (h : Gap text lo hi comments) : GapTo text lo hi := by
  obtain ⟨front, gap, rest, found, htext, hlo, hhi, hskip, -⟩ := h
  exact ⟨front, gap, rest, found, htext, hlo, hhi, hskip⟩

theorem Gap.lineComment
    (h : Gap text lo hi comments)
    {comment : Span}
    (hcomment : comment ∈ comments) :
    LineComment text lo hi comment := by
  obtain ⟨front, gap, rest, found, htext, hlo, hhi, hskip, rfl⟩ := h
  rw [List.append_assoc] at htext
  exact lineComment_of_mem hskip htext hlo (Nat.le_of_eq hlo.symm) hcomment

namespace Lexed

theorem le (h : Lexed text lo hi comments) : lo ≤ hi := by
  induction h with
  | start => exact Nat.le_refl _
  | gap _ hgap ih => exact Nat.le_trans ih hgap.gapTo.le
  | token _ _ htoken ih => exact Nat.le_trans ih htoken.le

theorem trans
    (h : Lexed text lo mid comments)
    (h' : Lexed text mid hi more) :
    Lexed text lo hi (comments ++ more) := by
  induction h' with
  | start => simpa using h
  | gap _ hgap ih =>
      rw [← List.append_assoc]
      exact ih.gap hgap
  | token _ hgap htoken ih => exact ih.token hgap htoken

/-- The comments of a reading are line comments of the text, and the reading goes on in another line
behind each of them. -/
theorem lineComment
    (h : Lexed text lo hi comments)
    {comment : Span}
    (hcomment : comment ∈ comments) :
    LineComment text lo hi comment := by
  induction h with
  | start => cases hcomment
  | gap h hgap ih =>
      rcases List.mem_append.mp hcomment with hcomment | hcomment
      · exact (ih hcomment).mono (Nat.le_refl _) hgap.gapTo.le
      · exact (hgap.lineComment hcomment).mono h.le (Nat.le_refl _)
  | token _ _ htoken ih => exact (ih hcomment).mono (Nat.le_refl _) htoken.le

end Lexed

end Syntax
end EsModules
