import EsModules.Proofs.Syntax.Expressions
import EsModules.Syntax.Grammar.Statement

/-!
# Places of statements

A statement that imports or exports is edited at its ends, and what remains of it in the middle.
`Item.Placed` says where its parts lie: the decorators of an exported class before the statement,
all other identifiers in its inner part, and the inner part inside the statement.

Every statement that the grammar reads is placed between the token where it begins and the last
token it consumes.
-/

namespace EsModules
namespace Syntax

open Text

namespace Item

/-- The part of the statement that is kept when its import or export is taken away. -/
def inner : Item → Span
  | exportDeclaration _ inner _ _ => inner
  | exportDefault _ inner _ _ => inner
  | item => item.span

/-- The statement and its parts lie behind `lo` in order. -/
structure Placed (text : List Char) (lo : Nat) (item : Item) : Prop where
  lo_le : lo ≤ item.span.start
  start_le : item.span.start ≤ item.inner.start
  inner_le : item.inner.start ≤ item.inner.stop
  stop_le : item.inner.stop ≤ item.span.stop
  wholeSpan : Boundary text item.span.start ∧ Boundary text item.span.stop
  wholeInner : Boundary text item.inner.start ∧ Boundary text item.inner.stop
  code :
    ∃ front back, spansOf item.code = front ++ back ∧ Spread text lo item.span.start front ∧
      Spread text item.inner.start item.inner.stop back

theorem Placed.mono
    {text : List Char}
    {lo lo' : Nat}
    {item : Item}
    (h : item.Placed text lo)
    (hle : lo' ≤ lo) :
    item.Placed text lo' := by
  obtain ⟨front, back, hcode, hfront, hback⟩ := h.code
  exact { h with
    lo_le := Nat.le_trans hle h.lo_le
    code := ⟨front, back, hcode, hfront.mono hle (Nat.le_refl _), hback⟩ }

theorem Placed.lo_le_stop
    {text : List Char}
    {lo : Nat}
    {item : Item}
    (h : item.Placed text lo) :
    lo ≤ item.span.stop :=
  calc lo ≤ item.span.start := h.lo_le
    _ ≤ item.inner.start := h.start_le
    _ ≤ item.inner.stop := h.inner_le
    _ ≤ item.span.stop := h.stop_le

/-- The identifiers of a statement lie before its end. -/
theorem Placed.spread
    {text : List Char}
    {lo : Nat}
    {item : Item}
    (h : item.Placed text lo) :
    Spread text lo item.span.stop (spansOf item.code) := by
  obtain ⟨front, back, hcode, hfront, hback⟩ := h.code
  rw [hcode]
  refine hfront.append (hback.mono (Nat.le_refl _) h.stop_le) ?_ h.start_le ?_
  · exact Nat.le_trans h.lo_le h.start_le
  · exact Nat.le_trans (Nat.le_trans h.start_le h.inner_le) h.stop_le

/-- An identifier of a statement lies before it, with the decorators, or in its inner part. -/
theorem Placed.mem_code
    {text : List Char}
    {lo : Nat}
    {item : Item}
    (h : item.Placed text lo)
    {x : Span}
    (hx : x ∈ spansOf item.code) :
    x.stop ≤ item.span.start ∨ (item.inner.start ≤ x.start ∧ x.stop ≤ item.inner.stop) := by
  obtain ⟨front, back, hcode, hfront, hback⟩ := h.code
  rw [hcode] at hx
  rcases List.mem_append.mp hx with hx | hx
  · exact .inl (hfront.inside x hx).2.2
  · have := hback.inside x hx
    exact .inr ⟨this.1, this.2.2⟩

/-- An import or export begins with a word of its own, and a function or class that is exported by
default ends the statement. -/
def Shaped : Item → Prop
  | exportDeclaration span inner _ _ => span.start < inner.start
  | exportDefault span inner (.function _) _ => span.start < inner.start ∧ inner.stop = span.stop
  | exportDefault span inner (.classDef _) _ => span.start < inner.start ∧ inner.stop = span.stop
  | exportDefault span inner _ _ => span.start < inner.start
  | statement _ _ _ => True
  | item => item.span.start < item.span.stop

/-- The statement begins with `export`. -/
def IsExport : Item → Prop
  | imports _ _ _ => False
  | statement _ _ _ => False
  | _ => True

end Item

namespace Parser

open ParseState

variable {text : List Char} {g : Grammar} {s₀ s s₁ s₂ s₃ : ParseState}

/-- Nothing but decorators stands between two states. -/
def Leads (s₀ s : ParseState) (decoration : List Node) : Prop :=
  s = s₀ ∨
    (s₀.token.isMark "@" = true ∧ s₀.token.span.start < s.token.span.start ∧
      ∀ x ∈ spansOf decoration, s₀.token.span.start < x.start)

/-- A statement read between two states: its identifiers are passed, and its parts lie between the
tokens where it begins and ends.  Only an export with decorators begins behind the first token. -/
structure Stands (text : List Char) (s s' : ParseState) (item : Item) : Prop where
  step : Step text s s' ⟨true, spansOf item.code⟩
  placed : item.Placed text s.token.span.start
  stop : item.span.stop = s'.lastEnd
  shaped : item.Shaped
  start :
    item.span.start = s.token.span.start ∨
      (s.token.isMark "@" = true ∧ ∀ x ∈ spansOf item.code, s.token.span.start < x.start)
  isExport : s.token.span.start < item.span.start → item.IsExport
  reached : ∃ comments, Lexed text s.lastEnd item.span.start comments

/-- A statement that is kept as a whole. -/
theorem Stands.whole
    {item : Item}
    (hs : s.Good text)
    (hstep : Step text s s₁ ⟨true, spansOf item.code⟩)
    (hspan : item.span = ⟨s.token.span.start, s₁.lastEnd⟩)
    (hinner : item.inner = item.span)
    (hshaped : item.Shaped) :
    Stands text s s₁ item := by
  have hle := hstep.taken rfl
  refine ⟨hstep, ?_, by rw [hspan], hshaped, .inl (by rw [hspan]), by simp [hspan], ?_⟩
  · rw [hspan] at hinner
    constructor <;> simp only [hspan, hinner]
    · exact Nat.le_refl _
    · exact Nat.le_refl _
    · exact hle
    · exact Nat.le_refl _
    · exact ⟨hs.start, hstep.good.last⟩
    · exact ⟨hs.start, hstep.good.last⟩
    · exact ⟨[], spansOf item.code, rfl, .nil, hstep.spread⟩
  · rw [hspan]
    exact hs.reached

theorem Stands.behind
    {item : Item}
    {decoration : List Node}
    {d : Bool}
    (h : Stands text s s₁ item)
    (h₀ : Step text s₀ s ⟨d, []⟩)
    (hlead : Leads s₀ s decoration)
    (hexport : item.IsExport) :
    Stands text s₀ s₁ item := by
  refine ⟨(h₀.trans h.step).mono (by simp), h.placed.mono h₀.start_le, h.stop, h.shaped, ?_,
    fun _ => hexport, ?_⟩
  · rcases hlead with rfl | ⟨hmark, hlt, -⟩
    · exact h.start
    · refine .inr ⟨hmark, fun x hx => ?_⟩
      exact Nat.lt_of_lt_of_le hlt (h.placed.spread.inside x hx).1
  · exact h₀.reached h.reached

/-- An export: the decorators of a class may stand before it, and words before its inner part. -/
theorem Stands.exported
    {item : Item}
    {decoration : List Node}
    {d : Bool}
    {back : List Span}
    (hkind : s.token.kind ≠ .finish)
    (hlead : Leads s₀ s decoration)
    (h₀ : Step text s₀ s ⟨d, spansOf decoration⟩)
    (h₁ : Step text s s₁ ⟨true, []⟩)
    (h₂ : Step text s₁ s₂ ⟨true, back⟩)
    (h₃ : Step text s₂ s₃ ⟨false, []⟩)
    (hspan : item.span = ⟨s.token.span.start, s₃.lastEnd⟩)
    (hinner : item.inner = ⟨s₁.token.span.start, s₂.lastEnd⟩)
    (hcode : spansOf item.code = spansOf decoration ++ back)
    (hshaped : s.token.span.start < s₁.token.span.start → item.Shaped) :
    Stands text s₀ s₃ item := by
  have hlt : s.token.span.start < s₁.token.span.start :=
    Nat.lt_of_lt_of_le (h₁.moved hkind (.inl rfl)) h₁.good.last_le
  have hexport : item.IsExport := by
    have hapart : item.inner ≠ item.span := by
      intro hsame
      rw [hspan, hinner, Span.mk.injEq] at hsame
      omega
    cases item with
    | imports => exact absurd rfl hapart
    | statement => exact absurd rfl hapart
    | _ => trivial
  refine ⟨?_, ?_, by rw [hspan], hshaped hlt, ?_, fun _ => hexport, ?_⟩
  · exact (((h₀.trans h₁).trans h₂).trans h₃).mono (by simp [hcode])
  · constructor <;> simp only [hspan, hinner]
    · exact h₀.start_le
    · exact h₁.start_le
    · exact h₂.taken rfl
    · exact h₃.last_le
    · exact ⟨h₀.good.start, h₃.good.last⟩
    · exact ⟨h₁.good.start, h₂.good.last⟩
    · exact ⟨spansOf decoration, back, hcode,
        h₀.spread.mono (Nat.le_refl _) h₀.good.last_le, h₂.spread⟩
  · rcases hlead with rfl | ⟨hmark, hbefore, hdecoration⟩
    · exact .inl (by rw [hspan])
    · refine .inr ⟨hmark, fun x hx => ?_⟩
      rw [hcode] at hx
      rcases List.mem_append.mp hx with hx | hx
      · exact hdecoration x hx
      · have := (h₂.spread.inside x hx).1
        omega
  · rw [hspan]
    exact h₀.reached h₀.good.reached

/-- What is known behind a word that has to be the current token. -/
theorem Yields.expectWord
    {β : Type}
    {word : String}
    {q : Unit → Parser β}
    {R : β → ParseState → Prop}
    (hs : s.Good text)
    (h : s.token.kind ≠ .finish → ∀ s', Step text s s' ⟨true, []⟩ → Yields s' (q ()) R) :
    Yields s (Parser.expectWord word >>= q) R := by
  have hkind : Yields s (Parser.expectWord word) fun _ _ => s.token.kind ≠ .finish := by
    intro a s' hrun hfinish
    have hnot : Yields s (eatWord word) fun found _ => found = false := by
      intro found s' heat
      rw [eatWord_of_not (by simp [Token.isWord, hfinish])] at heat
      cases heat
      rfl
    have hrefused : Yields s (Parser.expectWord word) fun _ _ => False := by
      refine hnot.bind ?_
      rintro found s' rfl
      exact .refuse
    exact hrefused a s' hrun
  exact (((reads_expectWord word).step hs).and hkind).bind fun _ s' hstep => h hstep.2 s' hstep.1

/-! ### Imports and exports -/

theorem reads_publicName : Reads text publicName fun _ => ⟨true, []⟩ :=
  .observe .token fun _ => .require fun _ => .bind reads_shift fun _ => .pure (by simp)

theorem reads_moduleSource : Reads text moduleSource fun _ => ⟨true, []⟩ :=
  .observe .token fun _ => .require fun _ => .bind reads_shift fun _ => .pure (by simp)

theorem reads_importAttribute : Reads text importAttribute fun _ => ⟨true, []⟩ := by
  refine .observe .token fun _ => .require fun _ => .bind reads_shift fun _ => ?_
  refine .bind (reads_expectMark ":") fun _ => .bind reads_moduleSource fun _ => ?_
  exact .pure (by simp)

theorem reads_importAttributes : Reads text importAttributes fun _ => ⟨false, []⟩ := by
  refine .observe .token fun _ => ?_
  split
  · refine .bind reads_advance fun _ => .bind (reads_expectMark _) fun _ => ?_
    refine .bind (reads_commaList _ reads_importAttribute) fun ⟨keys, _⟩ => ?_
    exact .last (reads_require _) (by simp)
  · exact .pure (by simp)

theorem reads_fromClause : Reads text fromClause fun _ => ⟨true, []⟩ := by
  refine .bind (reads_expectWord "from") fun _ => .bind reads_moduleSource fun source => ?_
  refine .bind reads_importAttributes fun _ => .bind reads_semicolon fun _ => ?_
  exact .pure (by simp)

theorem reads_importSpecifier (c : Context) :
    Reads text (importSpecifier c) fun _ => ⟨true, []⟩ := by
  refine .bind reads_publicName fun t => .bind (reads_eatWord "as") fun renamed => ?_
  split
  · exact .bind (reads_identifier c) fun name => .pure (by simp)
  · exact .require fun _ => .pure (by simp)

theorem reads_importList (c : Context) : Reads text (importList c) fun _ => ⟨true, []⟩ := by
  refine .bind (reads_eatMark "*") fun whole => ?_
  split
  · refine .bind (reads_expectWord "as") fun _ => .bind (reads_identifier c) fun name => ?_
    exact .pure (by simp)
  · refine .bind (reads_expectMark _) fun _ => ?_
    exact .bind (reads_commaList _ (reads_importSpecifier c)) fun items => .pure (by simp)

theorem reads_importPhase : Reads text importPhase fun _ => ⟨false, []⟩ := by
  refine .observe (.atWord "source") fun source => ?_
  split
  · refine .observe (.lookahead _) fun follows => ?_
    split
    · exact .last reads_advance (by simp)
    · exact .pure (by simp)
  · refine .observe (.atWord "defer") fun defer => .observe (.peekIs _) fun star => ?_
    split
    · exact .last reads_advance (by simp)
    · exact .pure (by simp)

theorem reads_importBindings (c : Context) :
    Reads text (importBindings c) fun _ => ⟨true, []⟩ := by
  refine .observe .token fun t => ?_
  split
  · refine .bind (reads_identifier c) fun name => .bind (reads_eatMark ",") fun more => ?_
    split
    · exact .bind (reads_importList c) fun items => .pure (by simp)
    · exact .pure (by simp)
  · exact reads_importList c

theorem stands_importDeclaration (hs : s.Good text) (c : Context) :
    Yields s (importDeclaration c) fun item s' => Stands text s s' item := by
  refine .here (.expectWord hs fun hkind s₁ h₁ => .token ?_)
  split
  · refine .reads h₁ reads_moduleSource fun source s₂ h₂ => ?_
    refine .reads h₂ reads_importAttributes fun _ s₃ h₃ => ?_
    refine .reads h₃ reads_semicolon fun _ s₄ h₄ => .spanFrom (.pure ?_)
    exact .whole hs (h₄.mono (by simp [Item.code])) rfl rfl (h₄.moved hkind (.inl rfl))
  · refine .reads h₁ reads_importPhase fun _ s₂ h₂ => ?_
    refine .reads h₂ (reads_importBindings c) fun bindings s₃ h₃ => ?_
    refine .reads h₃ reads_fromClause fun source s₄ h₄ => .spanFrom (.pure ?_)
    exact .whole hs (h₄.mono (by simp [Item.code])) rfl rfl (h₄.moved hkind (.inl rfl))

theorem reads_exportSpecifier : Reads text exportSpecifier fun _ => ⟨true, []⟩ := by
  refine .bind reads_publicName fun t => .bind (reads_eatWord "as") fun renamed => ?_
  split
  · exact .bind reads_publicName fun name => .pure (by simp)
  · exact .pure (by simp)

/-- An export without a declaration of its own. -/
structure Bare (text : List Char) (s s' : ParseState) (start : Nat) (item : Item) : Prop where
  step : Step text s s' ⟨true, []⟩
  span : item.span = ⟨start, s'.lastEnd⟩
  inner : item.inner = item.span
  code : spansOf item.code = []
  shaped : start < s'.lastEnd → item.Shaped
  isExport : item.IsExport

theorem bare_exportList (hs : s.Good text) (start : Nat) :
    Yields s (exportList start) fun item s' => Bare text s s' start item := by
  refine .reads (.refl hs) (reads_expectMark _) fun _ s₁ h₁ => ?_
  refine .reads h₁ (reads_commaList _ reads_exportSpecifier) fun ⟨entries, _⟩ s₂ h₂ => ?_
  refine .observe (.atWord "from") fun found => ?_
  split
  · refine .reads h₂ reads_fromClause fun source s₃ h₃ => .spanFrom (.pure ?_)
    exact ⟨h₃.mono (by simp), rfl, rfl, rfl, id, trivial⟩
  · refine .require fun _ => .reads h₂ reads_semicolon fun _ s₃ h₃ => .spanFrom (.pure ?_)
    exact ⟨h₃.mono (by simp), rfl, rfl, rfl, id, trivial⟩

theorem bare_exportAll (hs : s.Good text) (start : Nat) :
    Yields s (exportAll start) fun item s' => Bare text s s' start item := by
  refine .reads (.refl hs) (reads_expectMark "*") fun _ s₁ h₁ => ?_
  refine .reads h₁ (reads_eatWord "as") fun renamed s₂ h₂ => ?_
  extract_lets rest
  have hrest : ∀ exported s', Step text s s' ⟨true, []⟩ →
      Yields s' (rest exported) fun item s' => Bare text s s' start item := by
    intro exported s' h'
    refine .reads h' reads_fromClause fun source s₃ h₃ => .spanFrom (.pure ?_)
    exact ⟨h₃.mono (by simp), rfl, rfl, rfl, id, trivial⟩
  split
  · refine .reads h₂ reads_publicName fun t s₃ h₃ => ?_
    exact hrest _ _ (h₃.mono (by simp))
  · exact hrest _ _ (h₂.mono (by simp))

theorem reads_declaredClass (hg : g.InOrder text) (c : Context) (decoration : List Node) :
    Reads text (declaredClass g c decoration) fun r => ⟨true, spansBehind decoration r.2⟩ := by
  refine .of_step fun s hs => .here (.reads (.refl hs) (reads_decorators hg c) fun more s₁ h₁ => ?_)
  intro r s' hrun
  have hstep := (reads_classFrom hg c true _ (decoration ++ more)).step h₁.good r s' hrun
  have hspans := yields_classFrom s₁ c true _ (decoration ++ more) r s' hrun
  rw [spansOf_append, List.append_assoc] at hspans
  exact (h₁.trans hstep).mono (by simp [spansBehind_eq hspans])

theorem yields_declaredClass (s : ParseState) (c : Context) (decoration : List Node) :
    Yields s (declaredClass g c decoration) fun r _ =>
      r.2.spans = spansOf decoration ++ spansBehind decoration r.2 := by
  refine .bind_any fun start s₁ => .bind_any fun more s₂ => ?_
  refine (yields_classFrom s₂ c true start (decoration ++ more)).mono fun r _ hspans => ?_
  rw [spansOf_append, List.append_assoc] at hspans
  rwa [spansBehind_eq hspans]

theorem reads_interface (hg : g.InOrder text) (c : Context) :
    Reads text (interface g c) fun code => ⟨true, spansOf code⟩ := by
  refine .bind (reads_expectWord "interface") fun _ => .bind (reads_identifier c) fun name => ?_
  refine .bind (reads_eatWord "extends") fun extended => ?_
  extract_lets rest
  have hmember : Reads text (do
      let key ← propertyKey g c
      if !(← eatMark ",") then semicolon
      return key.code) fun code => ⟨true, spansOf code⟩ := by
    refine .bind (reads_propertyKey hg c) fun key => .bind (reads_eatMark ",") fun comma => ?_
    split
    · exact .bind reads_semicolon fun _ => .pure (by simp [Key.spans])
    · exact .pure (by simp [Key.spans])
  have hrest : ∀ heritage, Continues text ⟨true, spansOf heritage⟩ (rest heritage) fun code =>
      ⟨true, spansOf code⟩ := by
    intro heritage
    refine .bind (reads_expectMark _) fun _ => .bind (reads_itemsUntil _ hmember) fun members => ?_
    exact .pure (by simp)
  split
  · refine .seq (f := fun code => ⟨true, spansOf code⟩) ?_ hrest
    refine .loop (fun code => ⟨true, spansOf code⟩) (by simp) fun code => ?_
    refine .bind (hg.operand c) fun e => .bind (reads_eatMark ",") fun more => ?_
    split
    · exact .pure (by simp)
    · exact .pure (by simp)
  · exact .pure_bind ((hrest []).mono (by simp))

/-- A default export of a bare name has no code left. -/
theorem spansOf_code_exportDefault
    (span inner : Span)
    (value : DefaultValue)
    (code : List Node) :
    (spansOf (Item.exportDefault span inner value code).code).Sublist (spansOf code) := by
  cases value <;> simp [Item.code]

/-- A default export whose class has the decorators `decoration`, behind the word `export`. -/
theorem stands_exportDefault
    (hg : g.InOrder text)
    (c : Context)
    {decoration : List Node}
    {d : Bool}
    (hkind : s.token.kind ≠ .finish)
    (hlead : Leads s₀ s decoration)
    (h₀ : Step text s₀ s ⟨d, spansOf decoration⟩)
    (h₁ : Step text s s₁ ⟨true, []⟩) :
    Yields s₁ (exportDefault g c s.token.span.start decoration) fun item s' =>
      Stands text s₀ s' item := by
  refine .reads h₁ (reads_expectWord "default") fun _ s₂ h₂ => .here (.token ?_)
  have hwords : Step text s s₂ ⟨true, []⟩ := h₂.mono (by simp)
  split
  · have hclass := (reads_declaredClass hg c decoration).step h₂.good
    refine (hclass.and (yields_declaredClass s₂ c decoration)).bind ?_
    rintro ⟨name, node⟩ s₃ ⟨h₃, hnode⟩
    refine .spanFrom (.spanFrom (.pure ?_))
    exact .exported hkind hlead h₀ hwords h₃ (.refl h₃.good) rfl rfl
      (by simpa [Item.code] using hnode) fun hlt => ⟨hlt, rfl⟩
  · refine .require fun hempty => ?_
    obtain rfl : decoration = [] := List.isEmpty_iff.mp hempty
    refine .observe observes_atAsyncFunction fun async => ?_
    split
    · refine ((reads_functionHere hg c true false).step h₂.good).bind fun ⟨name, node⟩ s₃ h₃ => ?_
      refine .spanFrom (.spanFrom (.pure ?_))
      exact .exported hkind hlead h₀ hwords h₃ (.refl h₃.good) rfl rfl (by simp [Item.code])
        fun hlt => ⟨hlt, rfl⟩
    · refine .observe (.peekIs _) fun abstract => ?_
      split
      · refine (reads_advance.step h₂.good).bind fun _ s₃ h₃ => ?_
        refine .reads h₃ (reads_classFrom hg c true _ []) fun ⟨name, node⟩ s₄ h₄ => ?_
        have hclass : Step text s₂ s₄ ⟨true, node.spans⟩ := h₄.mono (by simp)
        refine .spanFrom (.spanFrom (.pure ?_))
        exact .exported hkind hlead h₀ hwords hclass (.refl h₄.good) rfl rfl (by simp [Item.code])
          fun hlt => ⟨hlt, rfl⟩
      · refine .observe (.peekIs _) fun sameLine => ?_
        split
        · refine ((reads_interface hg c).step h₂.good).bind fun code s₃ h₃ => ?_
          refine .spanFrom (.spanFrom (.pure ?_))
          exact .exported hkind hlead h₀ hwords h₃ (.refl h₃.good) rfl rfl (by simp [Item.code]) id
        · refine ((hg.assignment c).step h₂.good).bind fun e s₃ h₃ => .spanFrom ?_
          refine (reads_semicolon.step h₃.good).bind fun _ s₄ h₄ => .spanFrom (.pure ?_)
          have hvalue : ∀ span inner value, Step text s₂ s₃
              ⟨true, spansOf (Item.exportDefault span inner value e.code).code⟩ :=
            fun span inner value => h₃.mono ⟨by simp, spansOf_code_exportDefault span inner value _⟩
          refine .exported hkind hlead h₀ hwords (hvalue _ _ _) h₄ rfl rfl rfl fun hlt => ?_
          split <;> exact hlt

/-! ### Declarations -/

theorem reads_variableKind : Reads text variableKind fun _ => ⟨true, []⟩ := by
  refine .bind (reads_eatWord "var") fun isVar => ?_
  cases isVar with
  | true => exact .pure (by simp)
  | false =>
      refine .bind (reads_eatWord "let") fun isLet => ?_
      cases isLet with
      | true => exact .pure (by simp)
      | false =>
          refine .bind (reads_eatWord "const") fun isConst => ?_
          cases isConst with
          | true => exact .pure (by simp)
          | false =>
              refine .bind (reads_eatWord "await") fun _ => ?_
              exact .bind (reads_expectWord "using") fun _ => .pure (by simp)

theorem spans_bindingsNode (kind : VariableKind) (ds : List Declarator) :
    (bindingsNode kind ds).spans = ds.flatMap fun d => spansOf d.binder.code := by
  simp [bindingsNode]

theorem reads_declarators (hg : g.InOrder text) (c : Context) (kind : VariableKind) :
    Reads text (declarators g c kind) fun ds =>
      ⟨true, ds.flatMap fun d => spansOf d.binder.code⟩ := by
  refine .loop (fun ds => ⟨false, ds.flatMap fun d => spansOf d.binder.code⟩) (by simp)
    fun ds => ?_
  refine .bind (hg.pattern c) fun p => .require fun _ => ?_
  refine .bind (reads_initializer? hg c) fun code => .bind (reads_eatMark ",") fun again => ?_
  split
  · exact .pure (by simp [List.flatMap_append])
  · exact .pure (by simp [List.flatMap_append])

theorem reads_variableDeclaration (hg : g.InOrder text) (c : Context) :
    Reads text (variableDeclaration g c) fun r => ⟨true, (bindingsNode r.1 r.2).spans⟩ := by
  refine .bind reads_variableKind fun kind => .bind (reads_declarators hg c kind) fun ds => ?_
  refine .require fun _ => .bind reads_semicolon fun _ => ?_
  exact .pure (by simp [spans_bindingsNode])

/-- A declaration behind the word `export`. -/
theorem stands_exportedDeclaration
    (hg : g.InOrder text)
    (c : Context)
    {decoration : List Node}
    {d : Bool}
    (hkind : s.token.kind ≠ .finish)
    (hlead : Leads s₀ s decoration)
    (h₀ : Step text s₀ s ⟨d, spansOf decoration⟩)
    (h₁ : Step text s s₁ ⟨true, []⟩) :
    Yields s₁ (exportedDeclaration g c s.token.span.start decoration) fun item s' =>
      Stands text s₀ s' item := by
  refine .here (.token ?_)
  split
  · have hclass := (reads_declaredClass hg c decoration).step h₁.good
    refine (hclass.and (yields_declaredClass s₁ c decoration)).bind ?_
    rintro ⟨name, node⟩ s₂ ⟨h₂, hnode⟩
    refine .spanFrom (.spanFrom (.pure ?_))
    exact .exported hkind hlead h₀ h₁ h₂ (.refl h₂.good) rfl rfl
      (by simpa [Item.code] using hnode) id
  · refine .require fun hempty => ?_
    obtain rfl : decoration = [] := List.isEmpty_iff.mp hempty
    split
    · refine ((reads_variableDeclaration hg c).step h₁.good).bind fun ⟨kind, ds⟩ s₂ h₂ => ?_
      refine .spanFrom (.spanFrom (.pure ?_))
      exact .exported hkind hlead h₀ h₁ h₂ (.refl h₂.good) rfl rfl (by simp [Item.code]) id
    · refine .observe observes_atAsyncFunction fun async => .require fun _ => ?_
      refine ((reads_functionHere hg c true true).step h₁.good).bind fun ⟨name, node⟩ s₂ h₂ => ?_
      refine .spanFrom (.spanFrom (.pure ?_))
      exact .exported hkind hlead h₀ h₁ h₂ (.refl h₂.good) rfl rfl (by simp [Item.code]) id

/-- An export behind the decorators of its class. -/
theorem stands_exportStatement
    (hg : g.InOrder text)
    (c : Context)
    {decoration : List Node}
    {d : Bool}
    (hlead : Leads s₀ s decoration)
    (h₀ : Step text s₀ s ⟨d, spansOf decoration⟩) :
    Yields s (exportStatement g c decoration) fun item s' => Stands text s₀ s' item := by
  have hbare : ∀ {p : Parser Item} {s₁ : ParseState}, s.token.kind ≠ .finish →
      Step text s s₁ ⟨true, []⟩ → decoration.isEmpty = true →
      (Yields s₁ p fun item s' => Bare text s₁ s' s.token.span.start item) →
      Yields s₁ p fun item s' => Stands text s₀ s' item := by
    intro p s₁ hkind h₁ hempty hp
    obtain rfl : decoration = [] := List.isEmpty_iff.mp hempty
    refine hp.mono fun item s' hitem => ?_
    have hstep : Step text s s' ⟨true, spansOf item.code⟩ :=
      (h₁.trans hitem.step).mono (by simp [hitem.code])
    have hshaped := hitem.shaped (hstep.moved hkind (.inl rfl))
    exact (Stands.whole h₀.good hstep hitem.span hitem.inner hshaped).behind h₀ hlead
      hitem.isExport
  refine .here (.expectWord h₀.good fun hkind s₁ hword => ?_)
  refine .observe (.atWord "default") fun isDefault => ?_
  split
  · exact stands_exportDefault hg c hkind hlead h₀ hword
  · refine .observe (.atMark "*") fun star => ?_
    split
    · rename_i hstar
      exact hbare hkind hword (Bool.and_eq_true_iff.mp hstar).2 (bare_exportAll hword.good _)
    · refine .observe (.atMark _) fun list => ?_
      split
      · rename_i hlist
        exact hbare hkind hword (Bool.and_eq_true_iff.mp hlist).2 (bare_exportList hword.good _)
      · exact stands_exportedDeclaration hg c hkind hlead h₀ hword

/-! ### Control flow -/

theorem observes_letDeclares (place : Place) : Observes (letDeclares place) := by
  refine (Observes.atWord "let").bind fun found => ?_
  split
  · exact .pure _
  · refine Observes.peek.bind fun next => ?_
    split
    · exact .pure _
    · split
      · exact .pure _
      · split <;> exact .pure _

theorem observes_atUsing (c : Context) : Observes (atUsing c) :=
  (Observes.lookahead _).bind fun _ => .pure _

theorem observes_atLoopDeclaration (c : Context) : Observes (atLoopDeclaration c) := by
  refine (Observes.atWord "var").bind fun isVar => (Observes.atWord "const").bind fun isConst => ?_
  split
  · exact .pure _
  · refine (Observes.atWord "let").bind fun isLet => ?_
    split
    · exact .peekIs _
    · refine (Observes.atWord "using").bind fun isUsing => (Observes.peekIs _).bind fun isOf => ?_
      split
      · exact .pure _
      · exact observes_atUsing c

theorem reads_bodyStatement (hg : g.InOrder text) (c : Context) :
    Reads text (bodyStatement g c) fun code => ⟨true, spansOf code⟩ :=
  .bind (hg.statement c .body) fun item => .pure (by simp)

theorem reads_block (hg : g.InOrder text) (c : Context) :
    Reads text (block g c) fun node => ⟨true, node.spans⟩ := by
  refine .observe .here fun start => .bind (reads_braced hg c) fun code => ?_
  exact .observe (.spanFrom start) fun span => .pure (by simp)

theorem reads_condition (hg : g.InOrder text) (c : Context) :
    Reads text (condition g c) fun code => ⟨true, spansOf code⟩ := by
  refine .bind (reads_expectMark "(") fun _ => .bind (reads_expression hg _) fun e => ?_
  exact .bind (reads_expectMark ")") fun _ => .pure (by simp)

theorem reads_ifStatement (hg : g.InOrder text) (c : Context) :
    Reads text (ifStatement g c) fun code => ⟨true, spansOf code⟩ := by
  refine .bind reads_advance fun _ => .bind (reads_condition hg c) fun test => ?_
  refine .bind (reads_bodyStatement hg c) fun yes => .bind (reads_eatWord "else") fun other => ?_
  split
  · exact .bind (reads_bodyStatement hg c) fun no => .pure (by simp)
  · exact .pure (by simp)

theorem reads_headedStatement (hg : g.InOrder text) (c : Context) :
    Reads text (headedStatement g c) fun code => ⟨true, spansOf code⟩ := by
  refine .bind reads_advance fun _ => .bind (reads_condition hg c) fun test => ?_
  exact .bind (reads_bodyStatement hg c) fun body => .pure (by simp)

theorem reads_doStatement (hg : g.InOrder text) (c : Context) :
    Reads text (doStatement g c) fun code => ⟨true, spansOf code⟩ := by
  refine .bind reads_advance fun _ => .bind (reads_bodyStatement hg c) fun body => ?_
  refine .bind (reads_expectWord "while") fun _ => .bind (reads_condition hg c) fun test => ?_
  exact .bind (reads_eatMark ";") fun _ => .pure (by simp)

theorem continues_iteration
    (hg : g.InOrder text)
    (c : Context)
    (isAwait : Bool)
    (left : List Node) :
    Continues text ⟨true, spansOf left⟩ (iteration g c isAwait left) fun r =>
      ⟨true, spansOf r.2⟩ := by
  refine .bind (reads_eatWord "of") fun isOf => ?_
  extract_lets rest
  have hrest : ∀ kind right, Continues text ⟨true, spansOf left ++ spansOf right⟩
      (rest (kind, right)) fun r => ⟨true, spansOf r.2⟩ := by
    intro kind right
    refine .bind (reads_expectMark ")") fun _ => .bind (reads_bodyStatement hg c) fun body => ?_
    exact .pure (by simp)
  split
  · exact .bind (hg.assignment _) fun e => .pure_bind ((hrest _ e.code).mono (by simp))
  · refine .bind (reads_expectWord "in") fun _ => .require fun _ => ?_
    exact .bind (reads_expression hg _) fun e => .pure_bind ((hrest _ e.code).mono (by simp))

theorem reads_optionalExpression (hg : g.InOrder text) (c : Context) (close : String) :
    Reads text (optionalExpression g c close) fun code => ⟨true, spansOf code⟩ := by
  refine .bind (reads_eatMark close) fun missing => ?_
  cases missing with
  | true => exact .pure (by simp)
  | false =>
      refine .bind (reads_expression hg _) fun e => .bind (reads_expectMark close) fun _ => ?_
      exact .pure (by simp)

theorem continues_counting
    (hg : g.InOrder text)
    (c : Context)
    (isAwait : Bool)
    (init : List Node) :
    Continues text ⟨true, spansOf init⟩ (counting g c isAwait init) fun r =>
      ⟨true, spansOf r.2⟩ := by
  refine .require fun _ => .bind (reads_expectMark ";") fun _ => ?_
  refine .bind (reads_optionalExpression hg c ";") fun test => ?_
  refine .bind (reads_optionalExpression hg c ")") fun step => ?_
  exact .bind (reads_bodyStatement hg c) fun body => .pure (by simp)

theorem reads_forStatement (hg : g.InOrder text) (c : Context) :
    Reads text (forStatement g c) fun r => ⟨true, spansOf r.2⟩ := by
  refine .bind reads_advance fun _ => .observe (.atWord "await") fun awaits => ?_
  extract_lets inner head rest
  have hrest : ∀ isAwait, Continues text ⟨true, []⟩ (rest isAwait) fun r =>
      ⟨true, spansOf r.2⟩ := by
    intro isAwait
    refine .bind (reads_expectMark "(") fun _ => .observe (.atMark ";") fun empty => ?_
    split
    · exact (continues_counting hg c isAwait []).mono (by simp)
    · refine .observe (observes_atLoopDeclaration c) fun declares => ?_
      split
      · refine .bind reads_variableKind fun kind => .bind (reads_declarators hg _ kind) fun ds => ?_
        refine .observe .token fun t => ?_
        split
        · refine .require fun _ => (continues_iteration hg c isAwait _).mono ?_
          simp [spans_bindingsNode]
        · refine .require fun _ => (continues_counting hg c isAwait _).mono ?_
          simp [spans_bindingsNode]
      · refine .observe .token fun first => .observe (.peekIs _) fun asyncOf => ?_
        refine .bind (reads_expression hg _) fun e => .observe .token fun t => ?_
        split
        · refine .require fun _ => .bind (reads_assignTo e) fun _ => ?_
          exact (continues_iteration hg c isAwait e.targetCode).mono (by simp)
        · exact (continues_counting hg c isAwait e.code).mono (by simp)
  split
  · exact .require fun _ => .bind reads_advance fun _ => .pure_bind ((hrest true).mono (by simp))
  · exact .pure_bind ((hrest false).mono (by simp))

theorem reads_returnStatement (hg : g.InOrder text) (c : Context) :
    Reads text (returnStatement g c) fun code => ⟨true, spansOf code⟩ := by
  refine .require fun _ => .bind reads_advance fun _ => .observe .token fun t => ?_
  split
  · exact .bind reads_semicolon fun _ => .pure (by simp)
  · refine .bind (reads_expression hg _) fun e => .bind reads_semicolon fun _ => ?_
    exact .pure (by simp)

theorem reads_throwStatement (hg : g.InOrder text) (c : Context) :
    Reads text (throwStatement g c) fun code => ⟨true, spansOf code⟩ := by
  refine .bind reads_advance fun _ => .observe .token fun t => .require fun _ => ?_
  refine .bind (reads_expression hg _) fun e => .bind reads_semicolon fun _ => ?_
  exact .pure (by simp)

theorem reads_jumpStatement (c : Context) :
    Reads text (jumpStatement c) fun code => ⟨true, spansOf code⟩ := by
  refine .bind reads_advance fun _ => .observe .token fun t => ?_
  split
  · refine .bind (reads_identifier c) fun label => .bind reads_semicolon fun _ => ?_
    exact .pure (by simp)
  · exact .bind reads_semicolon fun _ => .pure (by simp)

theorem reads_handler (hg : g.InOrder text) (c : Context) :
    Reads text (handler g c) fun node => ⟨true, node.spans⟩ := by
  refine .observe .here fun start => .bind (reads_expectWord "catch") fun _ => ?_
  refine .bind (reads_eatMark "(") fun opens => ?_
  extract_lets rest
  have hrest : ∀ p : Option Binder,
      Continues text ⟨true, spansOf ((p.map (·.code)).getD [])⟩ (rest p) fun node =>
        ⟨true, node.spans⟩ := by
    intro p
    refine .bind (reads_block hg c) fun body => .observe (.spanFrom start) fun span => ?_
    exact .pure (by simp)
  split
  · refine .bind (hg.pattern c) fun p => .bind (reads_expectMark ")") fun _ => ?_
    exact .pure_bind ((hrest (some p)).mono (by simp))
  · exact .pure_bind ((hrest none).mono (by simp))

theorem reads_tryStatement (hg : g.InOrder text) (c : Context) :
    Reads text (tryStatement g c) fun code => ⟨true, spansOf code⟩ := by
  refine .bind reads_advance fun _ => .bind (reads_block hg c) fun body => ?_
  refine .observe (.atWord "catch") fun catches => ?_
  extract_lets rest
  have hrest : ∀ handled, Continues text ⟨true, body.spans ++ spansOf handled⟩ (rest handled)
      fun code => ⟨true, spansOf code⟩ := by
    intro handled
    refine .bind (reads_eatWord "finally") fun finishes => ?_
    extract_lets done
    have hdone : ∀ final, Continues text
        ⟨true, body.spans ++ spansOf handled ++ spansOf final⟩ (done final)
        fun code => ⟨true, spansOf code⟩ :=
      fun final => .require fun _ => .pure (by simp)
    split
    · exact .bind (reads_block hg c) fun node => .pure_bind ((hdone [node]).mono (by simp))
    · exact .pure_bind ((hdone []).mono (by simp))
  split
  · exact .bind (reads_handler hg c) fun node => .pure_bind ((hrest [node]).mono (by simp))
  · exact .pure_bind ((hrest []).mono (by simp))

theorem reads_switchCase (hg : g.InOrder text) (c : Context) :
    Reads text (switchCase g c) fun code => ⟨true, spansOf code⟩ := by
  refine .bind (reads_eatWord "default") fun isDefault => ?_
  extract_lets rest
  have hrest : ∀ test, Continues text ⟨true, spansOf test⟩ (rest test) fun code =>
      ⟨true, spansOf code⟩ := by
    intro test
    refine .bind (reads_expectMark ":") fun _ => ?_
    refine .loop (fun code => ⟨true, spansOf code⟩) (by simp) fun code => ?_
    refine .observe (.atWord "case") fun another => .observe (.atWord "default") fun other => ?_
    refine .observe (.atMark _) fun closes => ?_
    split
    · exact .pure (by simp)
    · exact .bind (hg.statement c .list) fun item => .pure (by simp)
  cases isDefault with
  | true => exact .pure_bind ((hrest []).mono (by simp))
  | false =>
      refine .bind (reads_expectWord "case") fun _ => .bind (reads_expression hg _) fun e => ?_
      exact .pure_bind ((hrest e.code).mono (by simp))

theorem reads_switchStatement (hg : g.InOrder text) (c : Context) :
    Reads text (switchStatement g c) fun code => ⟨true, spansOf code⟩ := by
  refine .observe .here fun start => .bind reads_advance fun _ => ?_
  refine .bind (reads_condition hg c) fun subject => .bind (reads_expectMark _) fun _ => ?_
  refine .bind (reads_itemsUntil _ (reads_switchCase hg c)) fun cases => ?_
  exact .observe (.spanFrom start) fun span => .pure (by simp)

/-! ### Statements -/

theorem stands_made
    {code : List Node}
    {start : Nat}
    (hs₀ : s₀.Good text)
    (hstep : Step text s₀ s ⟨true, spansOf code⟩)
    (hstart : start = s₀.token.span.start) :
    Yields s (made start code) fun item s' => Stands text s₀ s' item := by
  subst hstart
  exact .spanFrom (.pure (.whole hs₀ hstep rfl rfl trivial))

/-- A statement that consists of the code which `p` reads. -/
theorem Yields.made
    {p : Parser (List Node)}
    (hs : s.Good text)
    (hp : Reads text p fun code => ⟨true, spansOf code⟩) :
    Yields s (p >>= Parser.made s.token.span.start) fun item s' => Stands text s s' item :=
  (hp.step hs).bind fun _ _ hstep => stands_made hs hstep rfl

theorem stands_expressionStatement (hg : g.InOrder text) (hs : s.Good text) (c : Context) :
    Yields s (expressionStatement g c) fun item s' => Stands text s s' item := by
  refine .here (.reads (.refl hs) (reads_expression hg _) fun e s₁ h₁ => ?_)
  extract_lets rest
  have hrest : ∀ u s', Step text s s' ⟨true, spansOf e.code⟩ →
      Yields s' (rest u) fun item s' => Stands text s s' item := by
    intro u s' h'
    refine .reads h' reads_semicolon fun _ s₂ h₂ => .spanFrom (.pure ?_)
    exact .whole hs (h₂.mono (by simp [Item.code])) rfl rfl trivial
  split
  · refine .reads h₁ (reads_eatMark ":") fun labelled s₂ h₂ => ?_
    split
    · refine .reads h₂ (reads_bodyStatement hg c) fun body s₃ h₃ => ?_
      exact stands_made hs (h₃.mono (by simp)) rfl
    · exact hrest () _ (h₂.mono (by simp))
  · exact hrest () _ h₁

/-- Decorators take their mark, and their code lies behind it. -/
theorem leads_decorators
    (hg : g.InOrder text)
    (hs : s.Good text)
    (hmark : s.token.isMark "@" = true)
    (c : Context) :
    Yields s (decorators g c) fun decoration s' => Leads s s' decoration := by
  have hloop : Yields s (decorators g c) fun decoration s' =>
      s.token.span.start < s'.token.span.start ∧
        ∀ x ∈ spansOf decoration, s.token.span.start < x.start := by
    refine .loop (fun code s' => s'.Good text ∧
      (s' = s ∨ s.token.span.start < s'.token.span.start) ∧
      ∀ x ∈ spansOf code, s.token.span.start < x.start) ⟨hs, .inl rfl, by simp⟩ ?_
    rintro code s₁ ⟨hs₁, hmoved, hcode⟩
    by_cases hat : s₁.token.isMark "@" = true
    · have hkind : s₁.token.kind ≠ .finish := by
        intro hfinish
        simp [Token.isMark, hfinish] at hat
      have heat := ((reads_eatMark "@").step hs₁).and
        (R := fun found _ => found = true) (yields_eatMark_of_isMark hat)
      refine heat.bind ?_
      rintro found s₂ ⟨h₂, rfl⟩
      have hlt : s₁.token.span.start < s₂.token.span.start :=
        Nat.lt_of_lt_of_le (h₂.moved hkind (.inl rfl)) h₂.good.last_le
      have hle : s.token.span.start ≤ s₁.token.span.start := by
        rcases hmoved with rfl | hmoved
        · exact Nat.le_refl _
        · exact Nat.le_of_lt hmoved
      refine ((hg.operand _).step h₂.good).bind fun e s₃ h₃ => .pure ⟨h₃.good, .inr ?_, ?_⟩
      · have := h₃.start_le
        omega
      · intro x hx
        rw [spansOf_append, List.mem_append] at hx
        rcases hx with hx | hx
        · exact hcode x hx
        · have := (h₃.spread.inside x hx).1
          omega
    · have hnot : s₁.token.isMark "@" = false := Bool.eq_false_iff.mpr hat
      have heat : Yields s₁ (eatMark "@") fun found s₂ => found = false ∧ s₂ = s₁ := by
        intro found s₂ hrun
        rw [eatMark_of_not hnot] at hrun
        cases hrun
        exact ⟨rfl, rfl⟩
      refine heat.bind ?_
      rintro found s₂ ⟨rfl, rfl⟩
      refine .pure ⟨hmoved.resolve_left ?_, hcode⟩
      rintro rfl
      exact hat hmark
  exact hloop.mono fun decoration s' h => .inr ⟨hmark, h⟩

theorem stands_decorated
    (hg : g.InOrder text)
    (hs : s.Good text)
    (hmark : s.token.isMark "@" = true)
    (c : Context) :
    Yields s (decorated g c) fun item s' => Stands text s s' item := by
  refine .here ?_
  refine (((reads_decorators hg c).step hs).and (leads_decorators hg hs hmark c)).bind ?_
  rintro decoration s₁ ⟨h₁, hlead⟩
  refine .observe (.atWord "export") fun exported => ?_
  split
  · exact stands_exportStatement hg c hlead h₁
  · refine Yields.bind ((continues_classFrom hg c true _ decoration) s s₁ h₁) ?_
    rintro ⟨name, node⟩ s₂ h₂
    exact stands_made hs (h₂.mono (by simp)) rfl

theorem stands_functionDeclaration
    (hg : g.InOrder text)
    (hs : s.Good text)
    (c : Context)
    (place : Place) :
    Yields s (functionDeclaration g c place) fun item s' => Stands text s s' item := by
  refine .here (.observe (.atWord "function") fun found => .observe (.peekIs _) fun star => ?_)
  refine .require fun _ => .reads (.refl hs) (reads_functionHere hg c true true) ?_
  rintro ⟨name, node⟩ s₁ h₁
  exact stands_made hs (h₁.mono (by simp)) rfl

theorem stands_variableStatement (hg : g.InOrder text) (hs : s.Good text) (c : Context) :
    Yields s (variableStatement g c) fun item s' => Stands text s s' item := by
  refine .here (.reads (.refl hs) (reads_variableDeclaration hg c) ?_)
  rintro ⟨kind, ds⟩ s₁ h₁
  exact stands_made hs (h₁.mono (by simp)) rfl

theorem stands_wordStatement
    (hg : g.InOrder text)
    (hs : s.Good text)
    (c : Context)
    (place : Place) :
    Yields s (wordStatement g c place s.token) fun item s' => Stands text s s' item := by
  unfold wordStatement
  extract_lets start
  split
  · exact .made hs (reads_ifStatement hg c)
  · exact .made hs (reads_headedStatement hg c)
  · exact .made hs (reads_headedStatement hg c)
  · exact .made hs (reads_doStatement hg c)
  · refine .reads (.refl hs) (reads_forStatement hg c) fun ⟨kind, code⟩ s₁ h₁ => ?_
    refine .spanFrom (.pure ?_)
    exact .whole hs (h₁.mono (by simp [Item.code])) rfl rfl trivial
  · exact .made hs (reads_switchStatement hg c)
  · exact .made hs (reads_tryStatement hg c)
  · exact .made hs (reads_returnStatement hg c)
  · exact .made hs (reads_throwStatement hg c)
  · exact .made hs (reads_jumpStatement c)
  · exact .made hs (reads_jumpStatement c)
  · refine .reads (.refl hs) reads_advance fun _ s₁ h₁ => ?_
    exact .reads h₁ reads_semicolon fun _ s₂ h₂ => stands_made hs (h₂.mono (by simp)) rfl
  · exact stands_variableStatement hg hs c
  · exact .require fun _ => stands_variableStatement hg hs c
  · exact stands_functionDeclaration hg hs c place
  · refine .require fun _ => .reads (.refl hs) (reads_classFrom hg c true _ []) ?_
    rintro ⟨name, node⟩ s₁ h₁
    exact stands_made hs (h₁.mono (by simp)) rfl
  · refine .observe (.peekIs _) fun expression => ?_
    split
    · exact stands_expressionStatement hg hs c
    · exact stands_importDeclaration hs c
  · exact stands_exportStatement hg c (d := false) (.inl rfl) (.refl hs)
  · refine .observe (observes_letDeclares place) fun declares => ?_
    split
    · exact stands_variableStatement hg hs c
    · refine .observe (observes_atUsing c) fun uses => ?_
      split
      · exact stands_variableStatement hg hs c
      · refine .observe observes_atAsyncFunction fun async => ?_
        split
        · exact stands_functionDeclaration hg hs c place
        · exact stands_expressionStatement hg hs c

/-- Every statement is placed where it was read. -/
theorem stands_statement (hg : g.InOrder text) (hs : s.Good text) (c : Context) (place : Place) :
    Yields s (statement g c place) fun item s' => Stands text s s' item := by
  refine .token ?_
  split
  · exact stands_wordStatement hg hs c place
  · split
    · refine .reads (.refl hs) (reads_block hg c) fun node s₁ h₁ => ?_
      exact stands_made hs (h₁.mono (by simp)) rfl
    · split
      · refine .reads (.refl hs) reads_advance fun _ s₁ h₁ => ?_
        exact stands_made hs (h₁.mono (by simp)) rfl
      · split
        · rename_i hmark
          exact .require fun _ => stands_decorated hg hs hmark c
        · exact stands_expressionStatement hg hs c

theorem reads_statement (hg : g.InOrder text) (c : Context) (place : Place) :
    Reads text (statement g c place) fun item => ⟨true, spansOf item.code⟩ :=
  .of_step fun _ hs => (stands_statement hg hs c place).mono fun _ _ h => h.step

end Parser
end Syntax
end EsModules
