import EsModules.Proofs.Scope.Lexical
import EsModules.Proofs.Syntax.Lexeme
import EsModules.Syntax.Grammar

/-!
# What a parser passes

The identifiers that a production puts into its result stand between the token where the
production began and the last token it consumed, in the order of the text and without overlap.
What was passed on the way is a reading of the text (`Lexed`) that ends with a token.

`Step` states this for a move from one parser state to another, with the `Trail` of what was passed
on the way.  `Continues` is the rule of sequence for parsers in these terms: a parser that starts
behind one trail ends behind another.  `Reads` is the case of a parser that starts with nothing
passed.
-/

namespace EsModules
namespace Syntax

open Text

/-! ### Identifiers of code -/

theorem occurrencesOf_append (as bs : List Node) :
    occurrencesOf (as ++ bs) = occurrencesOf as ++ occurrencesOf bs := by
  induction as with
  | nil => rfl
  | cons node as ih => rw [List.cons_append, occurrencesOf, occurrencesOf, ih, List.append_assoc]

/-- The places of the identifiers of a piece of code. -/
def Node.spans (node : Node) : List Span :=
  node.occurrences.map (·.span)

/-- The places of the identifiers of several pieces of code. -/
def spansOf (code : List Node) : List Span :=
  (occurrencesOf code).map (·.span)

theorem mem_spansOf
    {code : List Node}
    {o : Occurrence}
    (h : o ∈ occurrencesOf code) :
    o.span ∈ spansOf code :=
  List.mem_map_of_mem h

@[simp] theorem spansOf_nil : spansOf [] = [] := rfl

@[simp] theorem spansOf_cons (node : Node) (code : List Node) :
    spansOf (node :: code) = node.spans ++ spansOf code := by
  simp [spansOf, occurrencesOf, Node.spans]

@[simp] theorem spansOf_append (as bs : List Node) :
    spansOf (as ++ bs) = spansOf as ++ spansOf bs := by
  rw [spansOf, occurrencesOf_append, List.map_append]
  rfl

@[simp] theorem spansOf_flatMap {α : Type} (f : α → List Node) (as : List α) :
    spansOf (as.flatMap f) = as.flatMap fun a => spansOf (f a) := by
  induction as with
  | nil => rfl
  | cons a as ih => simp [ih]

@[simp] theorem spansOf_flatten (codes : List (List Node)) :
    spansOf codes.flatten = codes.flatMap spansOf := by
  induction codes with
  | nil => rfl
  | cons code codes ih => simp [ih]

theorem map_span_within (scope : List String) (found : List Occurrence) :
    (found.map (·.within scope)).map (·.span) = found.map (·.span) := by
  simp [Occurrence.within, Function.comp_def]

@[simp] theorem Node.spans_reference (span : Span) (name : String) :
    (Node.reference span name).spans = [span] := rfl

@[simp] theorem Node.spans_property (key value : List Node) :
    (Node.property key value).spans = spansOf key ++ spansOf value :=
  List.map_append

@[simp] theorem Node.spans_shorthand (span : Span) (name : String) :
    (Node.shorthand span name).spans = [span] := rfl

@[simp] theorem Node.spans_target (span : Span) (name : String) (value : List Node) :
    (Node.target span name value).spans = span :: spansOf value := rfl

@[simp] theorem Node.spans_bindings
    (kind : VariableKind)
    (patterns : List Pattern)
    (code : List Node) :
    (Node.bindings kind patterns code).spans = spansOf code := rfl

@[simp] theorem Node.spans_function
    (declared : Bool)
    (span : Span)
    (name : Option String)
    (parameters : List Pattern)
    (head body : List Node) :
    (Node.function declared span name parameters head body).spans =
      spansOf head ++ spansOf body := by
  rw [Node.spans, Node.occurrences, map_span_within, List.map_append]
  rfl

@[simp] theorem Node.spans_classDef
    (declared : Bool)
    (span : Span)
    (name : Option String)
    (code : List Node) :
    (Node.classDef declared span name code).spans = spansOf code :=
  map_span_within _ _

@[simp] theorem Node.spans_staticBlock (code : List Node) :
    (Node.staticBlock code).spans = spansOf code := rfl

@[simp] theorem Node.spans_block (span : Span) (code : List Node) :
    (Node.block span code).spans = spansOf code :=
  map_span_within _ _

@[simp] theorem Node.spans_loop (kind : LoopKind) (span : Span) (code : List Node) :
    (Node.loop kind span code).spans = spansOf code :=
  map_span_within _ _

@[simp] theorem Node.spans_switch (span : Span) (subject cases : List Node) :
    (Node.switch span subject cases).spans = spansOf subject ++ spansOf cases := by
  rw [Node.spans, Node.occurrences, List.map_append, map_span_within]
  rfl

@[simp] theorem Node.spans_handler
    (span : Span)
    (parameter : Option Pattern)
    (code : List Node) :
    (Node.handler span parameter code).spans = spansOf code :=
  map_span_within _ _

@[simp] theorem Node.spans_imports (names : List String) : (Node.imports names).spans = [] := rfl

mutual

/-- Identifiers stay where they are when a literal is read as a pattern. -/
theorem spans_retarget (places : List Nat) (node : Node) :
    (retarget places node).spans = node.spans := by
  cases node with
  | property key value => simp [retarget, spansOf_retargetAll places value]
  | shorthand span name =>
      rw [retarget]
      split <;> rfl
  | _ => simp [retarget]

theorem spansOf_retargetAll (places : List Nat) (code : List Node) :
    spansOf (retargetAll places code) = spansOf code := by
  cases code with
  | nil => rfl
  | cons node rest =>
      simp [retargetAll, spans_retarget places node, spansOf_retargetAll places rest]

end

@[simp] theorem Expr.spansOf_targetCode (e : Expr) : spansOf e.targetCode = spansOf e.code :=
  spansOf_retargetAll _ _

/-! ### Spans in order -/

/-- The spans lie between `lo` and `hi`, hold whole characters of one line each and follow one
another. -/
structure Spread (text : List Char) (lo hi : Nat) (spans : List Span) : Prop where
  inside : ∀ x ∈ spans, lo ≤ x.start ∧ x.start < x.stop ∧ x.stop ≤ hi
  whole : ∀ x ∈ spans, Boundary text x.start ∧ Boundary text x.stop
  oneLine : ∀ x ∈ spans, OneLine text x.start x.stop
  ordered : spans.Pairwise fun x y => x.stop ≤ y.start

namespace Spread

variable {text : List Char} {lo hi : Nat}

theorem nil : Spread text lo hi [] :=
  ⟨by simp, by simp, by simp, .nil⟩

theorem sublist
    {xs ys : List Span}
    (h : Spread text lo hi ys)
    (hsub : xs.Sublist ys) :
    Spread text lo hi xs :=
  ⟨fun x hx => h.inside x (hsub.subset hx), fun x hx => h.whole x (hsub.subset hx),
    fun x hx => h.oneLine x (hsub.subset hx), h.ordered.sublist hsub⟩

theorem mono
    {lo' hi' : Nat}
    {xs : List Span}
    (h : Spread text lo hi xs)
    (hlo : lo' ≤ lo)
    (hhi : hi ≤ hi') :
    Spread text lo' hi' xs := by
  refine ⟨fun x hx => ?_, h.whole, h.oneLine, h.ordered⟩
  obtain ⟨h₁, h₂, h₃⟩ := h.inside x hx
  exact ⟨by omega, h₂, by omega⟩

theorem append
    {mid mid' : Nat}
    {xs ys : List Span}
    (hxs : Spread text lo mid xs)
    (hys : Spread text mid' hi ys)
    (hlo : lo ≤ mid')
    (hmid : mid ≤ mid')
    (hhi : mid ≤ hi) :
    Spread text lo hi (xs ++ ys) := by
  refine ⟨fun x hx => ?_, List.forall_mem_append.mpr ⟨hxs.whole, hys.whole⟩,
    List.forall_mem_append.mpr ⟨hxs.oneLine, hys.oneLine⟩, ?_⟩
  · rcases List.mem_append.mp hx with hx | hx
    · exact (hxs.mono (Nat.le_refl _) hhi).inside x hx
    · exact (hys.mono hlo (Nat.le_refl _)).inside x hx
  · rw [List.pairwise_append]
    refine ⟨hxs.ordered, hys.ordered, fun x hx y hy => ?_⟩
    have hx := (hxs.inside x hx).2.2
    have hy := (hys.inside y hy).1
    omega

theorem nodup {xs : List Span} (h : Spread text lo hi xs) : xs.Nodup := by
  refine List.Pairwise.imp_of_mem ?_ h.ordered
  rintro x y hx - hle rfl
  have := (h.inside x hx).2.1
  omega

end Spread

/-! ### Trails -/

/-- What a parser has passed: whether it consumed a token, and the identifiers it met. -/
structure Trail where
  taken : Bool
  spans : List Span

namespace Trail

/-- Nothing was passed. -/
def empty : Trail :=
  ⟨false, []⟩

instance : Append Trail :=
  ⟨fun a b => ⟨a.taken || b.taken, a.spans ++ b.spans⟩⟩

/-- One trail claims no more than another. -/
instance : LE Trail :=
  ⟨fun a b => (a.taken = true → b.taken = true) ∧ a.spans.Sublist b.spans⟩

@[simp] theorem taken_empty : empty.taken = false := rfl

@[simp] theorem spans_empty : empty.spans = [] := rfl

@[simp] theorem taken_append (a b : Trail) : (a ++ b).taken = (a.taken || b.taken) := rfl

@[simp] theorem spans_append (a b : Trail) : (a ++ b).spans = a.spans ++ b.spans := rfl

@[simp] theorem le_iff (a b : Trail) :
    a ≤ b ↔ (a.taken = true → b.taken = true) ∧ a.spans.Sublist b.spans :=
  Iff.rfl

theorem empty_append (a : Trail) : empty ++ a = a := rfl

end Trail

/-! ### Parser states -/

/-- The token was read behind the last one, or it goes on with a punctuator that was read there. -/
def ParseState.Fresh (text : List Char) (s : ParseState) : Prop :=
  ∃ front rest t behind,
    text = front ++ rest ∧ byteLength front = s.lastEnd ∧
    Token.read s.limit ⟨s.lastEnd, rest⟩ = some (t, behind) ∧
    t.span.start = s.token.span.start ∧
    ((s.token = t ∧ s.behind = behind) ∨
      (t.kind = .mark ∧ s.token.kind ≠ .mark ∧ s.token.kind ≠ .finish))

/-- The current token and the place behind it fit the text. -/
structure ParseState.Good (text : List Char) (s : ParseState) : Prop where
  behind : s.behind.At text
  stop : s.token.span.stop = s.behind.offset
  start_le_stop : s.token.span.start ≤ s.token.span.stop
  start : Boundary text s.token.span.start
  last_le : s.lastEnd ≤ s.token.span.start
  solid : s.token.kind ≠ .finish → s.token.span.start < s.token.span.stop
  mark :
    s.token.kind = .mark →
      ∃ front, text = front ++ s.token.text.toList ++ s.behind.rest ∧
        byteLength front = s.token.span.start
  fresh : s.Fresh text
  lexeme : s.token.kind ≠ .finish → Lexeme text s.token.kind s.token.span.start s.token.span.stop

namespace ParseState

variable {text : List Char} {s s₁ s₂ : ParseState}

theorem Good.last (h : s.Good text) : Boundary text s.lastEnd := by
  obtain ⟨front, rest, -, -, htext, hlen, -⟩ := h.fresh
  exact ⟨front, rest, htext, hlen⟩

/-- The current token stands behind a gap. -/
theorem Good.gapTo (h : s.Good text) : GapTo text s.lastEnd s.token.span.start := by
  obtain ⟨front, rest, t, behind, htext, hlen, hread, hstart, -⟩ := h.fresh
  rw [← hstart]
  exact gapTo_of_read htext hlen hread

/-- The current token is reached from the last one. -/
theorem Good.reached (h : s.Good text) :
    ∃ comments, Lexed text s.lastEnd s.token.span.start comments := by
  obtain ⟨comments, hgap⟩ := h.gapTo.gap
  exact ⟨_, Lexed.start.gap hgap⟩

/-- The current token is read behind the last one, or stands where a punctuator is read. -/
theorem Good.read_behind
    {front rest : List Char}
    (h : s.Good text)
    (htext : text = front ++ rest)
    (hlen : byteLength front = s.lastEnd) :
    ∃ t behind, Token.read s.limit ⟨s.lastEnd, rest⟩ = some (t, behind) ∧
      t.span.start = s.token.span.start ∧
      (s.token = t ∨ (t.kind = .mark ∧ s.token.kind ≠ .mark ∧ s.token.kind ≠ .finish)) := by
  obtain ⟨front', rest', t, behind, htext', hlen', hread, hstart, hsame⟩ := h.fresh
  obtain ⟨-, rfl⟩ := append_inj_of_byteLength (htext.symm.trans htext') (hlen.trans hlen'.symm)
  exact ⟨t, behind, hread, hstart, hsame.imp_left And.left⟩

/-- An opening parenthesis behind the last token is the current one. -/
theorem Good.at_opening
    {front gap rest : List Char}
    {found : Bool}
    (h : s.Good text)
    (htext : text = front ++ (gap ++ '(' :: rest))
    (hlen : byteLength front = s.lastEnd)
    (hgap : ∀ begin other, skipGap .space false begin (gap ++ other) =
      skipGap .space found (begin + byteLength gap) other) :
    s.token.isMark "(" = true := by
  obtain ⟨t, behind, hread, hstart, hsame⟩ := h.read_behind htext hlen
  rw [Token.read, hgap] at hread
  cases hread
  rcases hsame with hsame | ⟨-, hmark, hfinish⟩
  · rw [hsame]
    rfl
  · have hat : Cursor.At text ⟨s.token.span.start, '(' :: rest⟩ := by
      refine ⟨front ++ gap, by rw [htext, List.append_assoc], ?_⟩
      rw [byteLength_append, hlen]
      exact hstart
    exact absurd ((h.lexeme hfinish).eq_mark hat) hmark

/-- An underscore behind the last token begins the current one, which is a word. -/
theorem Good.at_underscore
    {front gap rest : List Char}
    {found : Bool}
    (h : s.Good text)
    (htext : text = front ++ (gap ++ '_' :: rest))
    (hlen : byteLength front = s.lastEnd)
    (hgap : ∀ begin other, skipGap .space false begin (gap ++ other) =
      skipGap .space found (begin + byteLength gap) other) :
    s.token.kind = .word ∧ ∃ letters, s.token.text = String.ofList ('_' :: letters) := by
  obtain ⟨t, behind, hread, -, hsame⟩ := h.read_behind htext hlen
  rw [Token.read, hgap] at hread
  obtain ⟨_, hskip, hread⟩ := Option.bind_eq_some_iff.mp hread
  cases hskip
  obtain ⟨w, hword, hread⟩ := Option.bind_eq_some_iff.mp hread
  obtain ⟨tail, -, rfl⟩ := Option.map_eq_some_iff.mp hword
  cases hread
  rcases hsame with hsame | ⟨hmark, -⟩
  · rw [hsame]
    exact ⟨rfl, tail.letters, rfl⟩
  · cases hmark

/-- The text of a punctuator lies between its place and the place behind it. -/
theorem Good.at_mark
    (hs : s.Good text)
    (c : Char)
    (more : List Char)
    (hmark : s.token.kind = .mark)
    (hchars : s.token.text.toList = c :: more) :
    Cursor.At text ⟨s.token.span.start, c :: (more ++ s.behind.rest)⟩ ∧
      s.behind.offset = s.token.span.start + byteLength (c :: more) := by
  obtain ⟨front, htext, hlen⟩ := hs.mark hmark
  obtain ⟨all, hall, hoffset⟩ := hs.behind
  rw [hchars] at htext
  have hfront : all = front ++ c :: more := List.append_cancel_right (hall.symm.trans htext)
  refine ⟨⟨front, by simpa using htext, hlen⟩, ?_⟩
  rw [← hoffset, hfront, byteLength_append, hlen]

/-- Reading the token behind a place that fits the text gives a state that fits it. -/
theorem Good.read
    (s : ParseState)
    {cursor : Cursor}
    (hat : cursor.At text)
    (hread : Token.read s.limit cursor = some (s.token, s.behind))
    (hlast : s.lastEnd = cursor.offset) :
    s.Good text ∧ cursor.offset ≤ s.token.span.start := by
  obtain ⟨here, hgap, hcovers⟩ := Token.covers_read hread
  have hhere := hat.passes hgap
  have hstart : cursor.offset ≤ s.token.span.start := by
    rw [hcovers.start]
    exact hgap.le
  refine ⟨?_, hstart⟩
  refine
    { behind := hhere.passes hcovers.passes
      stop := hcovers.stop
      start_le_stop := ?_
      start := ?_
      last_le := Nat.le_trans (Nat.le_of_eq hlast) hstart
      solid := ?_
      mark := ?_
      fresh := ?_
      lexeme := .of_read hat hread }
  · rw [hcovers.start, hcovers.stop]
    exact hcovers.passes.le
  · rw [hcovers.start]
    exact hhere.boundary
  · intro hkind
    rw [hcovers.start, hcovers.stop]
    exact (hcovers.stops hkind).lt
  · intro hmark
    obtain ⟨front, htext, hlen⟩ := hhere
    refine ⟨front, ?_, by rw [hcovers.start, hlen]⟩
    rw [htext, hcovers.mark hmark, List.append_assoc]
  · obtain ⟨front, htext, hlen⟩ := hat
    refine ⟨front, cursor.rest, s.token, s.behind, htext, hlen.trans hlast.symm, ?_, rfl,
      .inl ⟨rfl, rfl⟩⟩
    rw [hlast]
    exact hread

/-- A move of a parser from `s` to `s'` over the trail `k`. -/
structure Step (text : List Char) (s s' : ParseState) (k : Trail) : Prop where
  good : s'.Good text
  start_le : s.token.span.start ≤ s'.token.span.start
  last_le : s.lastEnd ≤ s'.lastEnd
  limit : s'.limit = s.limit
  taken : k.taken = true → s.token.span.start ≤ s'.lastEnd
  /-- Before the end of the text every token has some characters. -/
  moved :
    s.token.kind ≠ .finish → k.taken = true ∨ s'.token.kind = .finish →
      s.token.span.start < s'.lastEnd
  spread : Spread text s.token.span.start s'.lastEnd k.spans
  lexed : ∃ comments, Lexed text s.lastEnd s'.lastEnd comments
  /-- The last token consumed does not end a line. -/
  stops : s'.lastEnd = s.lastEnd ∨ StopsInLine text s'.lastEnd

namespace Step

theorem refl (h : s.Good text) : Step text s s .empty :=
  { good := h
    start_le := Nat.le_refl _
    last_le := Nat.le_refl _
    limit := rfl
    taken := by simp
    moved := fun hkind hmoved => absurd (hmoved.resolve_left (by simp)) hkind
    spread := .nil
    lexed := ⟨[], .start⟩
    stops := .inl rfl }

/-- What is reached from the end of a move is reached from its beginning. -/
theorem reached
    {k : Trail}
    {p : Nat}
    (h : Step text s s₁ k)
    (hp : ∃ comments, Lexed text s₁.lastEnd p comments) :
    ∃ comments, Lexed text s.lastEnd p comments := by
  obtain ⟨comments, hlexed⟩ := h.lexed
  obtain ⟨more, hmore⟩ := hp
  exact ⟨comments ++ more, hlexed.trans hmore⟩

theorem trans
    {a b : Trail}
    (h₁ : Step text s s₁ a)
    (h₂ : Step text s₁ s₂ b) :
    Step text s s₂ (a ++ b) := by
  constructor
  · exact h₂.good
  · exact Nat.le_trans h₁.start_le h₂.start_le
  · exact Nat.le_trans h₁.last_le h₂.last_le
  · exact h₂.limit.trans h₁.limit
  · intro htaken
    rcases Bool.or_eq_true_iff.mp htaken with ha | hb
    · exact Nat.le_trans (h₁.taken ha) h₂.last_le
    · exact Nat.le_trans h₁.start_le (h₂.taken hb)
  · intro hkind hmoved
    by_cases hfirst : a.taken = true ∨ s₁.token.kind = .finish
    · exact Nat.lt_of_lt_of_le (h₁.moved hkind hfirst) h₂.last_le
    · -- the first parser may not have moved, and the second one starts before the end
      obtain ⟨ha, hkind₁⟩ := not_or.mp hfirst
      refine Nat.lt_of_le_of_lt h₁.start_le (h₂.moved hkind₁ (hmoved.imp_left fun htaken => ?_))
      exact (Bool.or_eq_true_iff.mp htaken).resolve_left ha
  · exact h₁.spread.append h₂.spread h₁.start_le h₁.good.last_le h₂.last_le
  · exact h₁.reached h₂.lexed
  · rcases h₂.stops with hsame | hstops
    · rw [hsame]
      exact h₁.stops
    · exact .inr hstops

theorem mono
    {a b : Trail}
    (h : Step text s s₁ b)
    (hab : a ≤ b) :
    Step text s s₁ a :=
  { h with
    taken := fun ha => h.taken (hab.1 ha)
    moved := fun hkind hmoved => h.moved hkind (hmoved.imp_left hab.1)
    spread := h.spread.sublist hab.2 }

/-- A change that leaves the token where it is passes nothing. -/
theorem still
    (hgood : s₁.Good text)
    (hstart : s₁.token.span.start = s.token.span.start)
    (hlast : s₁.lastEnd = s.lastEnd)
    (hlimit : s₁.limit = s.limit)
    (hkind : s₁.token.kind = .finish → s.token.kind = .finish) :
    Step text s s₁ ⟨false, []⟩ :=
  { good := hgood
    start_le := Nat.le_of_eq hstart.symm
    last_le := Nat.le_of_eq hlast.symm
    limit := hlimit
    taken := by simp
    moved := fun hnot hmoved => absurd (hkind (hmoved.resolve_left (by simp))) hnot
    spread := .nil
    lexed := ⟨[], hlast ▸ .start⟩
    stops := .inl hlast }

end Step
end ParseState

/-! ### Parsers in sequence -/

namespace Parser

open ParseState

variable {α β σ : Type} {text : List Char} {k : Trail}

/-- Every result of the parser from the state `s` satisfies `Q`. -/
def Yields (s : ParseState) (p : Parser α) (Q : α → ParseState → Prop) : Prop :=
  ∀ a s', p s = .ok (a, s') → Q a s'

/-- The parser, started behind the trail `k`, ends behind the trail that `F` gives its result. -/
def Continues (text : List Char) (k : Trail) (p : Parser α) (F : α → Trail) : Prop :=
  ∀ s₀ s, Step text s₀ s k → Yields s p fun a s' => Step text s₀ s' (F a)

/-- The parser passes the trail that `f` gives its result. -/
def Reads (text : List Char) (p : Parser α) (f : α → Trail) : Prop :=
  Continues text .empty p f

theorem Yields.bind
    {s : ParseState}
    {p : Parser α}
    {q : α → Parser β}
    {Q : α → ParseState → Prop}
    {R : β → ParseState → Prop}
    (hp : Yields s p Q)
    (hq : ∀ a s', Q a s' → Yields s' (q a) R) :
    Yields s (p >>= q) R := by
  intro b s₂ h
  simp only [Bind.bind, StateT.bind, Except.bind] at h
  cases hrun : p s with
  | error fault => simp [hrun] at h
  | ok r =>
      obtain ⟨a, s₁⟩ := r
      simp only [hrun] at h
      exact hq a s₁ (hp a s₁ hrun) b s₂ h

theorem Yields.bind_any
    {s : ParseState}
    {p : Parser α}
    {q : α → Parser β}
    {R : β → ParseState → Prop}
    (h : ∀ a s', Yields s' (q a) R) :
    Yields s (p >>= q) R :=
  Yields.bind (Q := fun _ _ => True) (fun _ _ _ => trivial) fun a s' _ => h a s'

theorem Yields.pure
    {s : ParseState}
    {a : α}
    {Q : α → ParseState → Prop}
    (h : Q a s) :
    Yields s (pure a : Parser α) Q := by
  intro b s' hrun
  cases hrun
  exact h

theorem Yields.mono
    {s : ParseState}
    {p : Parser α}
    {Q R : α → ParseState → Prop}
    (hp : Yields s p Q)
    (h : ∀ a s', Q a s' → R a s') :
    Yields s p R :=
  fun a s' hrun => h a s' (hp a s' hrun)

theorem Yields.and
    {s : ParseState}
    {p : Parser α}
    {Q R : α → ParseState → Prop}
    (hQ : Yields s p Q)
    (hR : Yields s p R) :
    Yields s p fun a s' => Q a s' ∧ R a s' :=
  fun a s' hrun => ⟨hQ a s' hrun, hR a s' hrun⟩

theorem Yields.refuse {s : ParseState} {Q : α → ParseState → Prop} : Yields s refuse Q := by
  intro a s' h
  cases h

theorem Yields.require
    {s : ParseState}
    {condition : Bool}
    {q : Unit → Parser β}
    {R : β → ParseState → Prop}
    (h : condition = true → Yields s (q ()) R) :
    Yields s (Parser.require condition >>= q) R := by
  cases condition with
  | false => exact fun b s' hrun => by cases hrun
  | true => exact h rfl

theorem Reads.step
    {p : Parser α}
    {f : α → Trail}
    {s : ParseState}
    (h : Reads text p f)
    (hs : s.Good text) :
    Yields s p fun a s' => Step text s s' (f a) :=
  h s s (.refl hs)

theorem Reads.of_step
    {p : Parser α}
    {f : α → Trail}
    (h : ∀ s, s.Good text → Yields s p fun a s' => Step text s s' (f a)) :
    Reads text p f := by
  intro s₀ s hs
  exact (h s hs.good).mono fun a s' hstep => hs.trans hstep

theorem Yields.reads
    {s₀ s : ParseState}
    {p : Parser α}
    {f : α → Trail}
    {q : α → Parser β}
    {R : β → ParseState → Prop}
    (hs : Step text s₀ s k)
    (hp : Reads text p f)
    (hq : ∀ a s', Step text s₀ s' (k ++ f a) → Yields s' (q a) R) :
    Yields s (p >>= q) R :=
  (hp.step hs.good).bind fun a s' hstep => hq a s' (hs.trans hstep)

namespace Continues

variable {F : β → Trail}

/-- One parser after another. -/
theorem seq
    {p : Parser α}
    {f : α → Trail}
    {q : α → Parser β}
    (hp : Continues text k p f)
    (hq : ∀ a, Continues text (f a) (q a) F) :
    Continues text k (p >>= q) F := by
  intro s₀ s hs
  exact (hp s₀ s hs).bind fun a s₁ hstep => hq a s₀ s₁ hstep

theorem bind
    {p : Parser α}
    {f : α → Trail}
    {q : α → Parser β}
    (hp : Reads text p f)
    (hq : ∀ a, Continues text (k ++ f a) (q a) F) :
    Continues text k (p >>= q) F := by
  intro s₀ s hs
  refine (hp.step hs.good).bind fun a s₁ hstep => ?_
  exact hq a s₀ s₁ (hs.trans hstep)

/-- A parser at the end. -/
theorem last
    {p : Parser β}
    {f : β → Trail}
    (hp : Reads text p f)
    (h : ∀ b, F b ≤ k ++ f b) :
    Continues text k p F := by
  intro s₀ s hs
  exact (hp.step hs.good).mono fun b s₁ hstep => (hs.trans hstep).mono (h b)

theorem pure {b : β} (h : F b ≤ k) : Continues text k (pure b) F := by
  intro s₀ s hs
  exact .pure (hs.mono h)

theorem pure_bind
    {a : α}
    {q : α → Parser β}
    (h : Continues text k (q a) F) :
    Continues text k (Pure.pure a >>= q) F :=
  h

theorem refuse : Continues text k Parser.refuse F :=
  fun _ _ _ => .refuse

theorem require
    {condition : Bool}
    {q : Unit → Parser β}
    (h : condition = true → Continues text k (q ()) F) :
    Continues text k (Parser.require condition >>= q) F :=
  fun s₀ s hs => .require fun hc => h hc s₀ s hs

end Continues

/-- The parser leaves the state as it is. -/
def Observes (p : Parser α) : Prop :=
  ∀ s, Yields s p fun _ s' => s' = s

theorem Continues.observe
    {p : Parser α}
    {q : α → Parser β}
    {F : β → Trail}
    (hp : Observes p)
    (hq : ∀ a, Continues text k (q a) F) :
    Continues text k (p >>= q) F := by
  intro s₀ s hs
  refine (hp s).bind fun a s₁ hsame => ?_
  subst hsame
  exact hq a s₀ s₁ hs

/-! ### Looking -/

namespace Observes

theorem bind
    {p : Parser α}
    {q : α → Parser β}
    (hp : Observes p)
    (hq : ∀ a, Observes (q a)) :
    Observes (p >>= q) := by
  intro s
  refine (hp s).bind fun a s₁ hsame => ?_
  subst hsame
  exact hq a s₁

theorem pure (a : α) : Observes (pure a) :=
  fun _ => .pure rfl

theorem token : Observes Parser.token := by
  intro s a s' h
  cases h
  rfl

theorem here : Observes Parser.here := by
  intro s a s' h
  cases h
  rfl

theorem spanFrom (start : Nat) : Observes (Parser.spanFrom start) := by
  intro s a s' h
  cases h
  rfl

theorem peek : Observes Parser.peek := by
  intro s a s' h
  cases h
  rfl

theorem get : Observes (get : Parser ParseState) := by
  intro s a s' h
  cases h
  rfl

theorem lookahead (p : Parser α) : Observes (Parser.lookahead p) := by
  intro s a s' h
  unfold Parser.lookahead at h
  split at h <;>
  · cases h
    rfl

theorem atMark (mark : String) : Observes (Parser.atMark mark) :=
  token.bind fun _ => .pure _

theorem atWord (word : String) : Observes (Parser.atWord word) :=
  token.bind fun _ => .pure _

theorem peekIs (p : Token → Bool) : Observes (Parser.peekIs p) :=
  peek.bind fun _ => .pure _

end Observes

/-- What is known about the current token when it is looked at. -/
theorem Yields.token
    {s : ParseState}
    {q : Token → Parser β}
    {R : β → ParseState → Prop}
    (h : Yields s (q s.token) R) :
    Yields s (Parser.token >>= q) R :=
  h

theorem Yields.here
    {s : ParseState}
    {q : Nat → Parser β}
    {R : β → ParseState → Prop}
    (h : Yields s (q s.token.span.start) R) :
    Yields s (Parser.here >>= q) R :=
  h

theorem Yields.spanFrom
    {s : ParseState}
    {start : Nat}
    {q : Span → Parser β}
    {R : β → ParseState → Prop}
    (h : Yields s (q ⟨start, s.lastEnd⟩) R) :
    Yields s (Parser.spanFrom start >>= q) R :=
  h

theorem Yields.observe
    {s : ParseState}
    {p : Parser α}
    {q : α → Parser β}
    {R : β → ParseState → Prop}
    (hp : Observes p)
    (hq : ∀ a, Yields s (q a) R) :
    Yields s (p >>= q) R := by
  refine (hp s).bind fun a s₁ hsame => ?_
  subst hsame
  exact hq a

/-! ### Consuming -/

/-- The token that is consumed lies behind everything passed before. -/
theorem step_shift {s : ParseState} (hs : s.Good text) :
    Yields s shift fun _ s' =>
      Step text s s' ⟨true, if s.token.kind = .word then [s.token.span] else []⟩ := by
  intro a s' h
  unfold shift at h
  split at h
  · cases h
  · rename_i hmore
    have hlexeme := hs.lexeme fun hfinish => hmore (beq_iff_eq.mpr hfinish)
    split at h
    · rename_i t behind hread
      simp only [Except.ok.injEq, Prod.mk.injEq] at h
      obtain ⟨-, rfl⟩ := h
      obtain ⟨hgood, hbehind⟩ := Good.read
        { s with token := t, behind := behind, lastEnd := s.token.span.stop }
        hs.behind hread hs.stop
      have hstart := hs.start_le_stop
      have hlast := hs.last_le
      have hstop := hs.stop
      simp only at hbehind
      constructor
      · exact hgood
      · simp only
        omega
      · simp only
        omega
      · rfl
      · exact fun _ => hstart
      · exact fun hkind _ => hs.solid hkind
      · split
        · rename_i hword
          have hlt := hs.solid (by simp [hword])
          rw [hword] at hlexeme
          refine ⟨?_, ?_, ?_, List.pairwise_singleton _ _⟩ <;> rw [List.forall_mem_singleton]
          · exact ⟨Nat.le_refl _, hlt, Nat.le_refl _⟩
          · exact ⟨hs.start, hgood.last⟩
          · exact hlexeme.oneLine
        · exact .nil
      · obtain ⟨comments, hlexed⟩ := hs.reached
        exact ⟨comments, hlexed.token hs.gapTo.self hlexeme⟩
      · exact .inr hlexeme.stopsInLine
    · cases h

theorem reads_shift : Reads text shift fun _ => ⟨true, []⟩ :=
  .of_step fun _ hs => (step_shift hs).mono fun _ _ h => h.mono ⟨fun _ => rfl, by simp⟩

theorem reads_advance : Reads text advance fun _ => ⟨true, []⟩ :=
  .observe .token fun _ => .require fun _ => reads_shift

theorem reads_eatMark (mark : String) : Reads text (eatMark mark) fun b => ⟨b, []⟩ := by
  refine .observe (.atMark mark) fun b => ?_
  cases b with
  | false => exact .pure (by simp)
  | true => exact .bind reads_advance fun _ => .pure (by simp)

theorem reads_eatWord (word : String) : Reads text (eatWord word) fun b => ⟨b, []⟩ := by
  refine .observe (.atWord word) fun b => ?_
  cases b with
  | false => exact .pure (by simp)
  | true => exact .bind reads_advance fun _ => .pure (by simp)

/-- Another punctuator is left where it is. -/
theorem eatMark_of_not
    {s : ParseState}
    {mark : String}
    (h : s.token.isMark mark = false) :
    eatMark mark s = .ok (false, s) := by
  change (if s.token.isMark mark = true then advance >>= fun _ => Pure.pure true
    else Pure.pure false : Parser Bool) s = _
  rw [h]
  rfl

theorem yields_eatMark_of_isMark
    {s : ParseState}
    {mark : String}
    (h : s.token.isMark mark = true) :
    Yields s (eatMark mark) fun found _ => found = true := by
  change Yields s (if s.token.isMark mark = true then advance >>= fun _ => Pure.pure true
    else Pure.pure false) _
  rw [if_pos h]
  exact .bind_any fun _ _ => .pure rfl

/-- Another word is left where it is. -/
theorem eatWord_of_not
    {s : ParseState}
    {word : String}
    (h : s.token.isWord word = false) :
    eatWord word s = .ok (false, s) := by
  change (if s.token.isWord word = true then advance >>= fun _ => Pure.pure true
    else Pure.pure false : Parser Bool) s = _
  rw [h]
  rfl

theorem reads_require (condition : Bool) :
    Reads text (require condition) fun _ => ⟨false, []⟩ := by
  unfold require
  split
  · exact .pure (by simp)
  · exact .refuse

theorem reads_expectMark (mark : String) : Reads text (expectMark mark) fun _ => ⟨true, []⟩ := by
  refine .bind (reads_eatMark mark) fun b => ?_
  cases b with
  | false => exact .refuse
  | true => exact .pure (by simp)

theorem reads_expectWord (word : String) : Reads text (expectWord word) fun _ => ⟨true, []⟩ := by
  refine .bind (reads_eatWord word) fun b => ?_
  cases b with
  | false => exact .refuse
  | true => exact .pure (by simp)

theorem reads_semicolon : Reads text semicolon fun _ => ⟨false, []⟩ := by
  refine .bind (reads_eatMark ";") fun b => ?_
  cases b with
  | false => exact .observe .token fun _ => .last (reads_require _) (by simp)
  | true => exact .pure (by simp)

/-- Reading on behind a punctuator replaces it by a longer token. -/
theorem step_resume
    {s : ParseState}
    {t : Token}
    {behind : Cursor}
    (hs : s.Good text)
    (hmark : s.token.kind = .mark)
    (hbehind : behind.At text)
    (hlt : s.token.span.start < behind.offset)
    (hspan : t.span = ⟨s.token.span.start, behind.offset⟩)
    (hkind : t.kind ≠ .mark ∧ t.kind ≠ .finish)
    (hlexeme : Lexeme text t.kind s.token.span.start behind.offset) :
    Step text s { s with token := t, behind := behind } ⟨false, []⟩ := by
  have hgood : Good text { s with token := t, behind := behind } :=
    { behind := hbehind
      stop := by simp [hspan]
      start_le_stop := by simpa [hspan] using Nat.le_of_lt hlt
      start := by simpa [hspan] using hs.start
      last_le := by simpa [hspan] using hs.last_le
      solid := fun _ => by simpa [hspan] using hlt
      mark := fun hmark => absurd hmark hkind.1
      fresh := by
        obtain ⟨front, rest, first, last, htext, hlen, hread, hstart, hsame⟩ := hs.fresh
        refine ⟨front, rest, first, last, htext, hlen, hread, by simpa [hspan] using hstart,
          .inr ⟨?_, hkind⟩⟩
        rcases hsame with ⟨hsame, -⟩ | ⟨hfirst, -⟩
        · rwa [hsame] at hmark
        · exact hfirst
      lexeme := fun _ => by simpa [hspan] using hlexeme }
  exact .still hgood (by simp [hspan]) rfl rfl fun hfinish => absurd hfinish hkind.2

/-- A punctuator that has to be the current token. -/
theorem Yields.atMark
    {s : ParseState}
    {mark : String}
    {q : Unit → Parser β}
    {R : β → ParseState → Prop}
    (h : s.token.isMark mark = true → Yields s (q ()) R) :
    Yields s (Parser.atMark mark >>= fun found => Parser.require found >>= q) R := by
  intro b s' hrun
  exact Yields.require h b s' hrun

theorem step_resumeTemplate
    {s : ParseState}
    (hs : s.Good text)
    (hmark : s.token.kind = .mark)
    (hbrace : s.token.text = "\x7d") :
    Yields s resumeTemplate fun _ s' => Step text s s' ⟨false, []⟩ := by
  obtain ⟨hat, hoffset⟩ := hs.at_mark '\x7d' [] hmark (by rw [hbrace]; rfl)
  have hone : s.behind.offset = s.token.span.start + 1 := hoffset
  intro a s' h
  unfold resumeTemplate at h
  split at h
  · rename_i stretch hread
    simp only [Except.ok.injEq, Prod.mk.injEq] at h
    obtain ⟨-, rfl⟩ := h
    rw [hone] at hread
    have hlexeme := Lexeme.template hat hread
    have hpass := (stops_readTemplate hread).passes
    have hlt : s.token.span.start < stretch.behind.offset := hpass.le
    refine step_resume hs hmark ?_ hlt rfl (by simp) hlexeme
    exact hat.passes (Cursor.Passes.char.trans hpass)
  · cases h

/-- A slash, with an equals sign or not, begins a regular expression. -/
theorem step_resumeRegex
    {s : ParseState}
    (hs : s.Good text)
    (hmark : s.token.kind = .mark)
    (hslash : s.token.text = "/" ∨ s.token.text = "/=") :
    Yields s resumeRegex fun _ s' => Step text s s' ⟨false, []⟩ := by
  have hopened : ∃ rest, Cursor.At text ⟨s.token.span.start, '/' :: rest⟩ ∧
      (if s.token.text == "/=" then ⟨s.behind.offset - 1, '=' :: s.behind.rest⟩ else s.behind) =
        (⟨s.token.span.start + 1, rest⟩ : Cursor) := by
    rcases hslash with hslash | hslash
    · obtain ⟨hat, hoffset⟩ := hs.at_mark '/' [] hmark (by rw [hslash]; rfl)
      refine ⟨s.behind.rest, hat, ?_⟩
      have hone : s.behind.offset = s.token.span.start + 1 := hoffset
      rw [hslash, if_neg (by decide), ← hone]
    · obtain ⟨hat, hoffset⟩ := hs.at_mark '/' ['='] hmark (by rw [hslash]; rfl)
      refine ⟨'=' :: s.behind.rest, hat, ?_⟩
      have htwo : s.behind.offset = s.token.span.start + 2 := hoffset
      rw [hslash, if_pos (by decide), htwo]
      rfl
  obtain ⟨rest, hat, hopened⟩ := hopened
  intro a s' h
  unfold resumeRegex at h
  simp only [hopened] at h
  split at h
  · rename_i behind hread
    simp only [Except.ok.injEq, Prod.mk.injEq] at h
    obtain ⟨-, rfl⟩ := h
    have hpass := (inline_readRegex hread).passes
    refine step_resume hs hmark ?_ hpass.le rfl (by simp) (Lexeme.regex hat hread)
    exact hat.passes (Cursor.Passes.char.trans hpass)
  · cases h

theorem reads_attempt
    {p : Parser α}
    {f : α → Trail}
    (hp : Reads text p f) :
    Reads text (attempt p) fun r => (r.map f).getD .empty := by
  refine .of_step fun s hs => ?_
  intro r s' h
  unfold attempt at h
  split at h
  · rename_i a after hrun
    cases h
    exact hp.step hs a _ hrun
  · cases h
    exact .still { hs with } rfl rfl rfl id

/-- A change of what is known about shorthands and arrows passes nothing. -/
theorem reads_modify
    {f : ParseState → ParseState}
    (hf : ∀ s, (f s).token = s.token ∧ (f s).behind = s.behind ∧ (f s).lastEnd = s.lastEnd ∧
      (f s).limit = s.limit) :
    Reads text (modify f) fun _ => ⟨false, []⟩ := by
  refine .of_step fun s hs => ?_
  intro a s' h
  cases h
  obtain ⟨htoken, hbehind, hlast, hlimit⟩ := hf s
  have hgood : (f s).Good text := by
    obtain ⟨h₁, h₂, h₃, h₄, h₅, h₆, h₇, h₈, h₉⟩ := hs
    unfold Fresh at h₈
    constructor <;> simp only [Fresh, htoken, hbehind, hlast, hlimit] <;> assumption
  exact .still hgood (by rw [htoken]) hlast hlimit (by rw [htoken]; exact id)

theorem reads_settle (offsets : List Nat) : Reads text (settle offsets) fun _ => ⟨false, []⟩ :=
  reads_modify fun _ => ⟨rfl, rfl, rfl, rfl⟩

theorem reads_assignTo (e : Expr) : Reads text (assignTo e) fun _ => ⟨false, []⟩ := by
  unfold assignTo
  split
  · exact reads_settle _
  · exact .refuse

theorem reads_identifier (c : Context) : Reads text (identifier c) fun t => ⟨true, [t.span]⟩ := by
  refine .of_step fun s hs => ?_
  refine .token (.require fun hname => .require fun _ => ?_)
  have hword : s.token.kind = .word := by
    simp only [Token.isName, Bool.and_eq_true, beq_iff_eq] at hname
    exact hname.1
  refine (step_shift hs).bind fun _ s' hstep => .pure ?_
  rwa [if_pos hword] at hstep

/-! ### Repeating -/

theorem Continues.mono
    {p : Parser α}
    {F : α → Trail}
    {j : Trail}
    (hp : Continues text j p F)
    (hjk : j ≤ k) :
    Continues text k p F :=
  fun s₀ s hs => hp s₀ s (hs.mono hjk)

/-- A loop keeps an invariant of the value it goes around with and of the state. -/
theorem Yields.loop
    {s : ParseState}
    {init : σ}
    {step : σ → Parser (σ ⊕ α)}
    {R : α → ParseState → Prop}
    (I : σ → ParseState → Prop)
    (hinit : I init s)
    (hstep : ∀ acc s, I acc s → Yields s (step acc) (Sum.elim I R)) :
    Yields s (Parser.loop init step) R := by
  have hiterate : ∀ (n : Nat) (acc : σ) (s : ParseState), I acc s →
      Yields s (iterate step n acc) R := by
    intro n
    induction n with
    | zero => exact fun _ _ _ => .refuse
    | succ n ih =>
        intro acc s hs
        refine (hstep acc s hs).bind fun r s' hr => ?_
        cases r with
        | inl next => exact ih next s' hr
        | inr result => exact .pure hr
  exact .observe .get fun t => hiterate t.limit init s hinit

/-- A loop passes what its invariant says of the value it goes around with. -/
theorem Continues.loop
    {init : σ}
    {step : σ → Parser (σ ⊕ α)}
    {F : α → Trail}
    (I : σ → Trail)
    (hinit : I init ≤ k)
    (hstep : ∀ acc, Continues text (I acc) (step acc) (Sum.elim I F)) :
    Continues text k (Parser.loop init step) F := by
  intro s₀ s hs
  refine .loop (fun acc s => Step text s₀ s (I acc)) (hs.mono hinit) fun acc s hs => ?_
  refine (hstep acc s₀ s hs).mono fun r s' hr => ?_
  cases r with
  | inl next => exact hr
  | inr result => exact hr

theorem reads_commaList
    {item : Parser α}
    {f : α → Trail}
    (close : String)
    (hitem : Reads text item f) :
    Reads text (commaList close item) fun r => ⟨true, r.1.flatMap fun a => (f a).spans⟩ := by
  refine .loop (fun acc => ⟨false, acc.1.reverse.flatMap fun a => (f a).spans⟩) (by simp)
    fun ⟨items, comma⟩ => ?_
  refine .bind (reads_eatMark close) fun found => ?_
  cases found with
  | true => exact .pure (by simp)
  | false =>
      refine .require fun _ => .bind hitem fun a => .bind (reads_eatMark ",") fun again => ?_
      exact .pure (by simp [List.flatMap_append])

theorem reads_itemsUntil
    {item : Parser α}
    {f : α → Trail}
    (close : String)
    (hitem : Reads text item f) :
    Reads text (itemsUntil close item) fun r => ⟨true, r.flatMap fun a => (f a).spans⟩ := by
  refine .loop (fun acc => ⟨false, acc.reverse.flatMap fun a => (f a).spans⟩) (by simp)
    fun items => ?_
  refine .bind (reads_eatMark close) fun found => ?_
  cases found with
  | true => exact .pure (by simp)
  | false => exact .bind hitem fun a => .pure (by simp [List.flatMap_append])

end Parser
end Syntax
end EsModules
