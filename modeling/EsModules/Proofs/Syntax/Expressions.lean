import EsModules.Proofs.Syntax.Trail
import EsModules.Syntax.Grammar.Expression

/-!
# Identifiers of expressions

Every production for patterns, functions, classes and expressions passes the identifiers of its
result in the order of the text.  The productions are taken as they stand in the grammar; what the
others do is the hypothesis `Grammar.InOrder`.
-/

namespace EsModules
namespace Syntax

/-- Every production of the grammar consumes a token and passes the identifiers of its result. -/
structure Grammar.InOrder (text : List Char) (g : Grammar) : Prop where
  assignment : ∀ c, Parser.Reads text (g.assignment c) fun e => ⟨true, spansOf e.code⟩
  binary : ∀ c level, Parser.Reads text (g.binary c level) fun e => ⟨true, spansOf e.code⟩
  unary : ∀ c, Parser.Reads text (g.unary c) fun e => ⟨true, spansOf e.code⟩
  operand : ∀ c, Parser.Reads text (g.operand c) fun e => ⟨true, spansOf e.code⟩
  callee : ∀ c, Parser.Reads text (g.callee c) fun e => ⟨true, spansOf e.code⟩
  pattern : ∀ c, Parser.Reads text (g.pattern c) fun p => ⟨true, spansOf p.code⟩
  statement :
    ∀ c place, Parser.Reads text (g.statement c place) fun item => ⟨true, spansOf item.code⟩

namespace Parser

open ParseState

variable {text : List Char} {g : Grammar}

theorem reads_expression (hg : g.InOrder text) (c : Context) :
    Reads text (expression g c) fun e => ⟨true, spansOf e.code⟩ := by
  refine .bind (hg.assignment c) fun first => .observe (.atMark ",") fun more => ?_
  cases more with
  | false => exact .pure (by simp)
  | true =>
      refine .seq (f := fun code => ⟨true, spansOf code⟩) ?_
        fun code => .pure (by simp [Expr.plain])
      refine .loop (fun code => ⟨true, spansOf code⟩) (by simp) fun code => ?_
      refine .bind (reads_eatMark ",") fun again => ?_
      cases again with
      | false => exact .pure (by simp)
      | true => exact .bind (hg.assignment c) fun e => .pure (by simp)

/-! ### Patterns -/

/-- The places of the identifiers in a key, and of the word it may stand for. -/
def Key.spans (key : Key) : List Span :=
  key.word.toList.map (·.span) ++ spansOf key.code

theorem reads_propertyKey (hg : g.InOrder text) (c : Context) :
    Reads text (propertyKey g c) fun key => ⟨true, key.spans⟩ := by
  refine .of_step fun s hs => .token ?_
  split
  · rename_i hword
    refine (step_shift hs).bind fun _ s' hstep => .pure ?_
    rw [if_pos hword] at hstep
    exact hstep.mono (by simp [Key.spans])
  · exact (reads_shift.step hs).bind fun _ s' hstep => .pure (hstep.mono (by simp [Key.spans]))
  · exact (reads_shift.step hs).bind fun _ s' hstep => .pure (hstep.mono (by simp [Key.spans]))
  · exact (reads_shift.step hs).bind fun _ s' hstep => .pure (hstep.mono (by simp [Key.spans]))
  · refine Reads.step (p := _) ?_ hs
    refine .bind (reads_expectMark "[") fun _ => .bind (hg.assignment _) fun e => ?_
    exact .bind (reads_expectMark "]") fun _ => .pure (by simp [Key.spans])

theorem reads_initializer? (hg : g.InOrder text) (c : Context) :
    Reads text (initializer? g c) fun code => ⟨false, spansOf (code.getD [])⟩ := by
  refine .bind (reads_eatMark "=") fun found => ?_
  cases found with
  | false => exact .pure (by simp)
  | true => exact .bind (hg.assignment c) fun e => .pure (by simp)

theorem reads_bindingElement (hg : g.InOrder text) (c : Context) :
    Reads text (bindingElement g c) fun p => ⟨true, spansOf p.code⟩ := by
  refine .bind (hg.pattern c) fun p => .bind (reads_initializer? hg _) fun code => ?_
  cases code with
  | none => exact .pure (by simp)
  | some code => exact .pure (by simp)

theorem reads_restElement (hg : g.InOrder text) (c : Context) (close : String) :
    Reads text (restElement g c close) fun p => ⟨true, spansOf p.code⟩ := by
  refine .bind (reads_expectMark "...") fun _ => .bind (hg.pattern c) fun p => ?_
  exact .observe (.atMark close) fun _ => .require fun _ => .pure (by simp)

theorem reads_bindingProperty (hg : g.InOrder text) (c : Context) :
    Reads text (bindingProperty g c) fun p => ⟨true, spansOf p.code⟩ := by
  refine .observe (.atMark "...") fun rest => ?_
  cases rest with
  | true => exact .bind (reads_restElement hg c _) fun p => .require fun _ => .pure (by simp)
  | false =>
      refine .observe .token fun t => .observe (.peekIs _) fun colon => ?_
      split
      · refine .bind (reads_identifier c) fun t => .bind (reads_initializer? hg _) fun code => ?_
        cases code with
        | none => exact .pure (by simp)
        | some code => exact .pure (by simp)
      · refine .bind (reads_propertyKey hg c) fun key => .require fun _ => ?_
        refine .bind (reads_expectMark ":") fun _ => .bind (reads_bindingElement hg c) fun p => ?_
        exact .pure (by simp [Key.spans])

theorem reads_arrayBinding (hg : g.InOrder text) (c : Context) :
    Reads text (arrayBinding g c) fun ps => ⟨false, ps.flatMap fun p => spansOf p.code⟩ := by
  refine .observe (.atMark ",") fun hole => ?_
  cases hole with
  | true => exact .pure (by simp)
  | false =>
      refine .observe (.atMark "...") fun rest => ?_
      cases rest with
      | true => exact .bind (reads_restElement hg c _) fun p => .pure (by simp)
      | false => exact .bind (reads_bindingElement hg c) fun p => .pure (by simp)

theorem reads_pattern (hg : g.InOrder text) (c : Context) :
    Reads text (pattern g c) fun p => ⟨true, spansOf p.code⟩ := by
  refine .bind (reads_eatMark "\x7b") fun braces => ?_
  cases braces with
  | true =>
      refine .bind (reads_commaList _ (reads_bindingProperty hg c)) fun items => ?_
      exact .pure (by simp)
  | false =>
      refine .bind (reads_eatMark "[") fun brackets => ?_
      cases brackets with
      | true =>
          refine .bind (reads_commaList _ (reads_arrayBinding hg c)) fun items => ?_
          have hcode : items.1.flatten.flatMap (fun p => spansOf p.code) =
              items.1.flatMap fun ps => ps.flatMap fun p => spansOf p.code := by
            rw [← List.flatMap_id, List.flatMap_assoc]
            rfl
          exact .pure (by simp [hcode])
      | false => exact .bind (reads_identifier c) fun t => .pure (by simp)

/-! ### Functions -/

theorem reads_parameter (hg : g.InOrder text) (c : Context) :
    Reads text (parameter g c) fun p => ⟨true, spansOf p.1.code⟩ := by
  refine .observe (.atMark "...") fun rest => ?_
  cases rest with
  | true => exact .bind (reads_restElement hg c _) fun p => .pure (by simp)
  | false => exact .bind (reads_bindingElement hg c) fun p => .pure (by simp)

theorem reads_parameters (hg : g.InOrder text) (c : Context) :
    Reads text (parameters g c) fun ps => ⟨true, spansOf ps.code⟩ := by
  refine .bind (reads_expectMark "(") fun _ => ?_
  refine .bind (reads_commaList _ (reads_parameter hg c)) fun ⟨items, _⟩ => ?_
  exact .pure (by simp)

theorem reads_braced (hg : g.InOrder text) (c : Context) :
    Reads text (braced g c) fun code => ⟨true, spansOf code⟩ := by
  refine .bind (reads_expectMark "\x7b") fun _ => ?_
  exact .bind (reads_itemsUntil _ (hg.statement c .list)) fun items => .pure (by simp)

theorem reads_functionBody (hg : g.InOrder text) (c : Context) :
    Reads text (functionBody g c) fun code => ⟨true, spansOf code⟩ :=
  reads_braced hg _

theorem reads_functionRest
    (hg : g.InOrder text)
    (c : Context)
    (declared : Bool)
    (start : Nat)
    (name : Option String)
    (async generator : Bool) :
    Reads text (functionRest g c declared start name async generator) fun r =>
      ⟨true, r.2.spans⟩ := by
  refine .bind (reads_parameters hg _) fun ps => .bind (reads_functionBody hg _) fun body => ?_
  exact .observe (.spanFrom start) fun span => .pure (by simp)

theorem reads_functionFrom
    (hg : g.InOrder text)
    (c : Context)
    (declared nameRequired async : Bool)
    (start : Nat) :
    Reads text (functionFrom g c declared nameRequired async start) fun r =>
      ⟨true, r.2.spans⟩ := by
  refine .bind (reads_expectWord "function") fun _ => .bind (reads_eatMark "*") fun generator => ?_
  have hrest : ∀ (k : Trail) (name : Option String),
      Continues text k (do
        require (name.isSome || !nameRequired)
        let made ← functionRest g c declared start name async generator
        return (name, made.2)) fun r => ⟨true, r.2.spans⟩ := by
    intro k name
    refine .require fun _ => .bind (reads_functionRest hg c _ _ _ _ _) fun made => ?_
    exact .pure (by simp)
  refine .observe .token fun t => ?_
  split
  · exact .bind (reads_identifier _) fun t => .pure_bind (hrest _ _)
  · exact .pure_bind (hrest _ _)

theorem observes_atAsyncFunction : Observes atAsyncFunction := by
  refine (Observes.atWord "async").bind fun found => ?_
  cases found with
  | true => exact .peekIs _
  | false => exact .pure _

theorem reads_functionHere
    (hg : g.InOrder text)
    (c : Context)
    (declared nameRequired : Bool) :
    Reads text (functionHere g c declared nameRequired) fun r => ⟨true, r.2.spans⟩ := by
  refine .observe .here fun start => .bind (reads_eatWord "async") fun async => ?_
  exact .last (reads_functionFrom hg c _ _ _ _) (by simp)

theorem reads_method
    (hg : g.InOrder text)
    (c : Context)
    (kind : MethodKind)
    (async generator : Bool) :
    Reads text (method g c kind async generator) fun node => ⟨true, node.spans⟩ := by
  refine .observe .here fun start => ?_
  refine .bind (reads_functionRest hg c _ _ _ _ _) fun ⟨ps, node⟩ => ?_
  cases kind with
  | plain => exact .pure (by simp)
  | getter => exact .require fun _ => .pure (by simp)
  | setter => exact .require fun _ => .pure (by simp)

theorem reads_arrowBody (hg : g.InOrder text) (c : Context) (async : Bool) :
    Reads text (arrowBody g c async) fun code => ⟨true, spansOf code⟩ := by
  refine .observe .token fun t => .require fun _ => .bind (reads_expectMark "=>") fun _ => ?_
  refine .observe (.atMark _) fun braces => ?_
  cases braces with
  | true => exact .last (reads_functionBody hg _) (by simp)
  | false => exact .bind (hg.assignment _) fun e => .pure (by simp)

theorem reads_simpleArrow
    (hg : g.InOrder text)
    (c : Context)
    (start : Nat)
    (async : Bool)
    (name : String) :
    Reads text (simpleArrow g c start async name) fun e => ⟨true, spansOf e.code⟩ := by
  refine .bind (reads_arrowBody hg c async) fun body => .observe (.spanFrom start) fun span => ?_
  exact .pure (by simp [Expr.plain])

theorem reads_arrowHead (hg : g.InOrder text) (c : Context) :
    Reads text (arrowHead g c) fun r => ⟨true, spansOf r.2.code⟩ := by
  refine .bind (reads_eatWord "async") fun async => .bind (reads_parameters hg _) fun ps => ?_
  exact .observe .token fun t => .require fun _ => .pure (by simp)

/-- The code of an expression that may be missing. -/
def optionalSpans (e : Option Expr) : List Span :=
  (e.map fun e => spansOf e.code).getD []

theorem reads_parenthesizedArrow? (hg : g.InOrder text) (c : Context) :
    Reads text (parenthesizedArrow? g c) fun e => ⟨e.isSome, optionalSpans e⟩ := by
  refine .observe (.lookahead _) fun follows => ?_
  split
  · exact .pure (by simp [optionalSpans])
  · refine .observe .here fun start => .observe .get fun s => ?_
    split
    · exact .pure (by simp [optionalSpans])
    · refine .bind (reads_attempt (reads_arrowHead hg c)) fun head => ?_
      cases head with
      | none =>
          refine .bind (reads_modify fun _ => ⟨rfl, rfl, rfl, rfl⟩) fun _ => ?_
          exact .pure (by simp [optionalSpans])
      | some head =>
          obtain ⟨async, ps⟩ := head
          refine .bind (reads_arrowBody hg c async) fun body => ?_
          exact .observe (.spanFrom start) fun span =>
            .pure (by simp [optionalSpans, Expr.plain])

theorem reads_asyncArrow? (hg : g.InOrder text) (c : Context) :
    Reads text (asyncArrow? g c) fun e => ⟨e.isSome, optionalSpans e⟩ := by
  refine .observe (.lookahead _) fun follows => ?_
  split
  · exact .pure (by simp [optionalSpans])
  · refine .observe .here fun start => .bind (reads_expectWord "async") fun _ => ?_
    refine .bind (reads_identifier c) fun t => .bind (reads_simpleArrow hg c _ _ _) fun e => ?_
    exact .pure (by simp [optionalSpans])

/-! ### Classes -/

theorem reads_eatModifier (word : String) (sameLine : Bool) :
    Reads text (eatModifier word sameLine) fun b => ⟨b, []⟩ := by
  refine .observe (.atWord word) fun found => .observe (.peekIs _) fun key => ?_
  split
  · exact .bind reads_advance fun _ => .pure (by simp)
  · exact .pure (by simp)

theorem reads_decorators (hg : g.InOrder text) (c : Context) :
    Reads text (decorators g c) fun code => ⟨false, spansOf code⟩ := by
  refine .loop (fun code => ⟨false, spansOf code⟩) (by simp) fun code => ?_
  refine .bind (reads_eatMark "@") fun found => ?_
  cases found with
  | true => exact .bind (hg.operand _) fun e => .pure (by simp)
  | false => exact .pure (by simp)

theorem reads_staticBlock (hg : g.InOrder text) (c : Context) :
    Reads text (staticBlock g c) fun code => ⟨true, spansOf code⟩ :=
  .bind (reads_braced hg _) fun code => .pure (by simp)

theorem continues_field (hg : g.InOrder text) (c : Context) (isStatic : Bool) (key : Key) :
    Continues text ⟨true, key.spans⟩ (field g c isStatic key) fun code => ⟨true, spansOf code⟩ := by
  refine .require fun _ => .require fun _ => .bind (reads_initializer? hg _) fun code => ?_
  exact .bind reads_semicolon fun _ => .pure (by simp [Key.spans])

theorem continues_classMethod
    (hg : g.InOrder text)
    (c : Context)
    (kind : MethodKind)
    (isStatic async generator : Bool)
    (key : Key) :
    Continues text ⟨true, key.spans⟩ (classMethod g c kind isStatic async generator key) fun code =>
      ⟨true, spansOf code⟩ := by
  refine .require fun _ => .require fun _ => .bind (reads_method hg c kind _ _) fun node => ?_
  exact .pure (by simp [Key.spans])

theorem reads_memberKey (hg : g.InOrder text) (c : Context) :
    Reads text (memberKey g c) fun key => ⟨true, key.spans⟩ :=
  .bind (reads_propertyKey hg c) fun key => .require fun _ => .pure (by simp)

theorem reads_memberRest (hg : g.InOrder text) (c : Context) (isStatic : Bool) :
    Reads text (memberRest g c isStatic) fun code => ⟨true, spansOf code⟩ := by
  refine .bind (reads_eatModifier "accessor" true) fun accessor => ?_
  cases accessor with
  | true =>
      refine .bind (reads_memberKey hg c) fun key => ?_
      exact (continues_field hg c isStatic key).mono (by simp)
  | false =>
      refine .bind (reads_eatModifier "get" false) fun getter => ?_
      cases getter with
      | true =>
          refine .bind (reads_memberKey hg c) fun key => ?_
          exact (continues_classMethod hg c _ _ _ _ key).mono (by simp)
      | false =>
          refine .bind (reads_eatModifier "set" false) fun setter => ?_
          cases setter with
          | true =>
              refine .bind (reads_memberKey hg c) fun key => ?_
              exact (continues_classMethod hg c _ _ _ _ key).mono (by simp)
          | false =>
              refine .bind (reads_eatModifier "async" true) fun async => ?_
              refine .bind (reads_eatMark "*") fun generator => ?_
              refine .bind (reads_memberKey hg c) fun key => .observe (.atMark "(") fun opens => ?_
              split
              · exact (continues_classMethod hg c _ _ _ _ key).mono (by simp)
              · exact (continues_field hg c isStatic key).mono (by simp)

theorem reads_member (hg : g.InOrder text) (c : Context) :
    Reads text (member g c) fun code => ⟨true, spansOf code⟩ := by
  refine .bind (reads_eatMark ";") fun found => ?_
  cases found with
  | true => exact .pure (by simp)
  | false =>
      refine .bind (reads_decorators hg c) fun decoration => ?_
      refine .observe (.atWord "static") fun static => .observe (.peekIs _) fun brace => ?_
      split
      · refine .bind reads_advance fun _ => .bind (reads_staticBlock hg c) fun code => ?_
        exact .pure (by simp)
      · refine .bind (reads_eatModifier "static" false) fun isStatic => ?_
        exact .bind (reads_memberRest hg c isStatic) fun code => .pure (by simp)

/-- The identifiers of a class behind those of the decorators before it. -/
def spansBehind (decoration : List Node) (node : Node) : List Span :=
  node.spans.drop (spansOf decoration).length

@[simp] theorem spansBehind_nil (node : Node) : spansBehind [] node = node.spans := rfl

theorem spansBehind_eq
    {decoration : List Node}
    {node : Node}
    {back : List Span}
    (h : node.spans = spansOf decoration ++ back) :
    spansBehind decoration node = back := by
  rw [spansBehind, h, List.drop_left]

theorem reads_classFrom
    (hg : g.InOrder text)
    (c : Context)
    (declared : Bool)
    (start : Nat)
    (decoration : List Node) :
    Reads text (classFrom g c declared start decoration) fun r =>
      ⟨true, spansBehind decoration r.2⟩ := by
  unfold classFrom
  extract_lets inner named
  refine .bind (reads_expectWord "class") fun _ => .observe .token fun t => ?_
  refine .observe (.atWord "implements") fun implements => ?_
  have hnamed : ∀ name, Continues text ⟨true, []⟩ (named name) fun r =>
      ⟨true, spansBehind decoration r.2⟩ := by
    intro name
    refine .bind (reads_eatWord "extends") fun extended => ?_
    extract_lets inherited
    have hinherited : ∀ heritage, Continues text ⟨true, spansOf heritage⟩ (inherited heritage)
        fun r => ⟨true, spansBehind decoration r.2⟩ := by
      intro heritage
      refine .bind (reads_expectMark _) fun _ => ?_
      refine .bind (reads_itemsUntil _ (reads_member hg inner)) fun members => ?_
      exact .observe (.spanFrom start) fun span => .pure (by simp [spansBehind])
    split
    · refine .bind (hg.operand inner) fun e => .pure_bind ?_
      exact (hinherited e.code).mono (by simp)
    · exact .pure_bind ((hinherited []).mono (by simp))
  split
  · exact .bind (reads_identifier inner) fun t => .pure_bind ((hnamed _).mono (by simp))
  · exact .pure_bind ((hnamed _).mono (by simp))

/-- The decorators come first among the identifiers of a class. -/
theorem yields_classFrom
    (s : ParseState)
    (c : Context)
    (declared : Bool)
    (start : Nat)
    (decoration : List Node) :
    Yields s (classFrom g c declared start decoration) fun r _ =>
      r.2.spans = spansOf decoration ++ spansBehind decoration r.2 := by
  unfold classFrom
  extract_lets inner named
  refine .bind_any fun _ s => .bind_any fun t s => .bind_any fun implements s => ?_
  have hnamed : ∀ name s, Yields s (named name) fun r _ =>
      r.2.spans = spansOf decoration ++ spansBehind decoration r.2 := by
    intro name s
    refine .bind_any fun extended s => ?_
    extract_lets inherited
    have hinherited : ∀ heritage s, Yields s (inherited heritage) fun r _ =>
        r.2.spans = spansOf decoration ++ spansBehind decoration r.2 := by
      intro heritage s
      refine .bind_any fun _ s => .bind_any fun members s => .bind_any fun span s => ?_
      exact .pure (by simp [spansBehind])
    split
    · exact .bind_any fun e s => hinherited _ s
    · exact hinherited _ s
  split
  · exact .bind_any fun t s => hnamed _ s
  · exact hnamed _ s

theorem continues_classFrom
    (hg : g.InOrder text)
    (c : Context)
    (declared : Bool)
    (start : Nat)
    (decoration : List Node) :
    Continues text ⟨false, spansOf decoration⟩ (classFrom g c declared start decoration) fun r =>
      ⟨true, r.2.spans⟩ := by
  intro s₀ s hs r s' hrun
  have hstep := (reads_classFrom hg c declared start decoration).step hs.good r s' hrun
  have hspans := yields_classFrom s c declared start decoration r s' hrun
  exact (hs.trans hstep).mono (by simp [hspans])

/-! ### Expressions -/

theorem reads_spreadable (hg : g.InOrder text) (c : Context) :
    Reads text (spreadable g c) fun r => ⟨true, spansOf r.1.code⟩ := by
  refine .bind (reads_eatMark "...") fun spread => .bind (hg.assignment _) fun e => ?_
  exact .pure (by simp)

theorem reads_arguments (hg : g.InOrder text) (c : Context) :
    Reads text (arguments g c) fun code => ⟨true, spansOf code⟩ := by
  refine .bind (reads_expectMark "(") fun _ => ?_
  refine .bind (reads_commaList _ (reads_spreadable hg c)) fun ⟨items, _⟩ => ?_
  exact .pure (by simp)

theorem reads_template (hg : g.InOrder text) (c : Context) (tagged : Bool) :
    Reads text (template g c tagged) fun code => ⟨true, spansOf code⟩ := by
  refine .loop (fun code => ⟨false, spansOf code⟩) (by simp) fun code => ?_
  refine .observe .token fun t => .require fun _ => .bind reads_shift fun _ => ?_
  split
  · exact .pure (by simp)
  · refine .bind (reads_expression hg _) fun e => ?_
    intro s₀ s hs
    refine .atMark fun hbrace => ?_
    simp only [Token.isMark, Bool.and_eq_true, beq_iff_eq] at hbrace
    refine (step_resumeTemplate hs.good hbrace.1 hbrace.2).bind fun _ s' hstep => .pure ?_
    exact (hs.trans hstep).mono (by simp)

/-- A regular expression begins at a punctuator. -/
theorem step_regex
    {s : ParseState}
    (hs : s.Good text)
    (hmark : s.token.kind = .mark)
    (hslash : s.token.text = "/" ∨ s.token.text = "/=") :
    Yields s regex fun e s' => Step text s s' ⟨true, spansOf e.code⟩ := by
  refine (step_resumeRegex hs hmark hslash).bind fun _ s₁ h₁ => ?_
  refine (reads_shift.step h₁.good).bind fun _ s₂ h₂ => .pure ?_
  exact (h₁.trans h₂).mono (by simp [Expr.plain])

theorem reads_element (hg : g.InOrder text) (c : Context) :
    Reads text (element g c) fun e => ⟨false, spansOf e.code⟩ := by
  refine .observe (.atMark ",") fun hole => ?_
  cases hole with
  | true => exact .pure (by simp [Element.code])
  | false =>
      refine .bind (reads_spreadable hg c) fun ⟨e, spread⟩ => ?_
      cases spread with
      | true => exact .pure (by simp [Element.code])
      | false => exact .pure (by simp [Element.code])

theorem reads_array (hg : g.InOrder text) (c : Context) :
    Reads text (array g c) fun e => ⟨true, spansOf e.code⟩ := by
  refine .bind (reads_expectMark "[") fun _ => ?_
  refine .bind (reads_commaList _ (reads_element hg c)) fun ⟨elements, comma⟩ => ?_
  exact .pure (by simp [literal])

theorem continues_propertyRest
    (hg : g.InOrder text)
    (c : Context)
    (async generator : Bool)
    (key : Key) :
    Continues text ⟨true, key.spans⟩ (propertyRest g c async generator key) fun p =>
      ⟨true, spansOf p.code⟩ := by
  refine .observe (.atMark "(") fun opens => ?_
  split
  · exact .bind (reads_method hg c _ _ _) fun node => .pure (by simp [Key.spans])
  · refine .bind (reads_eatMark ":") fun colon => ?_
    cases colon with
    | true => exact .bind (hg.assignment _) fun e => .pure (by simp [Key.spans])
    | false =>
        cases hword : key.word with
        | none => exact .refuse
        | some t =>
            refine .require fun _ => .require fun _ => .bind (reads_eatMark "=") fun equals => ?_
            cases equals with
            | true =>
                refine .bind (hg.assignment _) fun e => ?_
                refine .bind (reads_modify fun _ => ⟨rfl, rfl, rfl, rfl⟩) fun _ => ?_
                exact .pure (by simp [Key.spans, hword])
            | false => exact .pure (by simp [Key.spans, hword])

theorem reads_property (hg : g.InOrder text) (c : Context) :
    Reads text (property g c) fun p => ⟨true, spansOf p.code⟩ := by
  unfold property
  extract_lets objectKey
  have hkey : Reads text objectKey fun key => ⟨true, key.spans⟩ :=
    .bind (reads_propertyKey hg c) fun key => .require fun _ => .pure (by simp)
  refine .bind (reads_eatMark "...") fun spread => ?_
  cases spread with
  | true => exact .bind (hg.assignment _) fun e => .pure (by simp)
  | false =>
      refine .bind (reads_eatModifier "get" false) fun getter => ?_
      cases getter with
      | true =>
          refine .bind hkey fun key => .bind (reads_method hg c _ _ _) fun node => ?_
          exact .pure (by simp [Key.spans])
      | false =>
          refine .bind (reads_eatModifier "set" false) fun setter => ?_
          cases setter with
          | true =>
              refine .bind hkey fun key => .bind (reads_method hg c _ _ _) fun node => ?_
              exact .pure (by simp [Key.spans])
          | false =>
              refine .bind (reads_eatModifier "async" true) fun async => ?_
              refine .bind (reads_eatMark "*") fun generator => .bind hkey fun key => ?_
              exact (continues_propertyRest hg c async generator key).mono (by simp)

theorem reads_object (hg : g.InOrder text) (c : Context) :
    Reads text (object g c) fun e => ⟨true, spansOf e.code⟩ := by
  refine .bind (reads_expectMark _) fun _ => ?_
  refine .bind (reads_commaList _ (reads_property hg c)) fun ⟨properties, comma⟩ => ?_
  exact .pure (by simp [literal])

theorem reads_parenthesized (hg : g.InOrder text) (c : Context) :
    Reads text (parenthesized g c) fun e => ⟨true, spansOf e.code⟩ := by
  refine .bind (reads_expectMark "(") fun _ => .bind (reads_expression hg _) fun e => ?_
  exact .bind (reads_expectMark ")") fun _ => .pure (by simp [Expr.parenthesized])

theorem reads_importCall (hg : g.InOrder text) (c : Context) :
    Reads text (importCall g c) fun e => ⟨true, spansOf e.code⟩ := by
  refine .bind (reads_expectMark "(") fun _ => .bind (hg.assignment _) fun source => ?_
  refine .bind (reads_eatMark ",") fun comma => .observe (.atMark ")") fun closes => ?_
  extract_lets rest
  have hrest : ∀ options, Continues text ⟨true, spansOf source.code ++ spansOf options⟩
      (rest options) fun e => ⟨true, spansOf e.code⟩ := by
    intro options
    refine .bind (reads_eatMark ",") fun _ => .bind (reads_expectMark ")") fun _ => ?_
    exact .pure (by simp)
  split
  · exact .bind (hg.assignment _) fun e => .pure_bind ((hrest e.code).mono (by simp))
  · exact .pure_bind ((hrest []).mono (by simp))

theorem reads_importExpression (hg : g.InOrder text) (c : Context) :
    Reads text (importExpression g c) fun e => ⟨true, spansOf e.code⟩ := by
  refine .bind (reads_expectWord "import") fun _ => .bind (reads_eatMark ".") fun point => ?_
  cases point with
  | false => exact .last (reads_importCall hg c) (by simp)
  | true =>
      refine .bind (reads_eatWord "meta") fun found => ?_
      cases found with
      | true => exact .pure (by simp [Expr.plain])
      | false =>
          refine .bind (reads_eatWord "source") fun source => ?_
          refine .bind (reads_eatWord "defer") fun defer => ?_
          split
          · exact .last (reads_importCall hg c) (by simp)
          · exact .refuse

theorem reads_superExpression :
    Reads text superExpression fun e => ⟨true, spansOf e.code⟩ := by
  refine .bind (reads_expectWord "super") fun _ => .observe .token fun t => .require fun _ => ?_
  exact .pure (by simp [Expr.plain])

theorem reads_newExpression (hg : g.InOrder text) (c : Context) :
    Reads text (newExpression g c) fun e => ⟨true, spansOf e.code⟩ := by
  refine .bind (reads_expectWord "new") fun _ => .bind (reads_eatMark ".") fun point => ?_
  cases point with
  | true => exact .bind (reads_expectWord "target") fun _ => .pure (by simp [Expr.plain])
  | false =>
      refine .bind (hg.callee c) fun callee => .require fun _ => ?_
      refine .observe (.atMark "(") fun opens => ?_
      cases opens with
      | true => exact .bind (reads_arguments hg c) fun args => .pure (by simp [Expr.plain])
      | false => exact .pure_bind (.pure (by simp [Expr.plain]))

theorem reads_wordExpression (hg : g.InOrder text) (c : Context) (t : Token) :
    Reads text (wordExpression g c t) fun e => ⟨true, spansOf e.code⟩ := by
  have hfunction : Continues text .empty (do
      let made ← functionHere g c false false
      return Expr.plain [made.2]) fun e => ⟨true, spansOf e.code⟩ :=
    .bind (reads_functionHere hg c _ _) fun made => .pure (by simp [Expr.plain])
  unfold wordExpression
  split
  iterate 4 exact .bind reads_advance fun _ => .pure (by simp [Expr.plain])
  · exact hfunction
  · exact reads_importExpression hg c
  · exact reads_superExpression
  · exact reads_newExpression hg c
  · refine .observe observes_atAsyncFunction fun found => ?_
    cases found with
    | true => exact hfunction
    | false => exact .bind (reads_identifier c) fun name => .pure (by simp)

theorem reads_dottedName : Reads text dottedName fun _ => ⟨true, []⟩ :=
  .observe .token fun _ => .require fun _ => reads_shift

theorem reads_indexed (hg : g.InOrder text) (c : Context) :
    Reads text (indexed g c) fun code => ⟨true, spansOf code⟩ := by
  refine .bind (reads_expectMark "[") fun _ => .bind (reads_expression hg _) fun e => ?_
  exact .bind (reads_expectMark "]") fun _ => .pure (by simp)

theorem continues_optionalStep
    (hg : g.InOrder text)
    (c : Context)
    (calls : Bool)
    (code : List Node) :
    Continues text ⟨true, spansOf code⟩ (optionalStep g c calls code) fun ch =>
      ⟨true, spansOf ch.value.code⟩ := by
  refine .bind (reads_expectMark "?.") fun _ => .observe (.atMark "[") fun bracket => ?_
  cases bracket with
  | true => exact .bind (reads_indexed hg c) fun index => .pure (by simp [Expr.plain])
  | false =>
      refine .observe (.atMark "(") fun opens => ?_
      split
      · exact .bind (reads_arguments hg c) fun args => .pure (by simp [Expr.plain])
      · exact .bind reads_dottedName fun _ => .pure (by simp [Expr.plain])

theorem continues_chain (hg : g.InOrder text) (c : Context) (calls : Bool) (first : Expr) :
    Continues text ⟨true, spansOf first.code⟩ (chain g c calls first) fun ch =>
      ⟨true, spansOf ch.value.code⟩ := by
  refine .loop (fun ch => ⟨true, spansOf ch.value.code⟩) (by simp) fun ch => ?_
  extract_lets made
  have hmade : ∀ code, (made code).code = code := by
    intro code
    show (if ch.optional then Expr.plain code else Expr.property code).code = code
    split <;> rfl
  refine .observe .token fun t => ?_
  split
  · refine .bind reads_advance fun _ => .bind reads_dottedName fun _ => ?_
    exact .pure (by simp [hmade])
  · split
    · exact .bind (reads_indexed hg c) fun index => .pure (by simp [hmade])
    · split
      · refine .seq (continues_optionalStep hg c calls ch.value.code) fun next => ?_
        exact .pure (by simp)
      · split
        · refine .require fun _ => .bind (reads_template hg c true) fun code => ?_
          exact .pure (by simp [Expr.plain])
        · split
          · exact .bind (reads_arguments hg c) fun args => .pure (by simp [Expr.plain])
          · exact .pure (by simp)

theorem reads_classExpression (hg : g.InOrder text) (c : Context) :
    Reads text (classExpression g c) fun e => ⟨true, spansOf e.code⟩ := by
  refine .observe .here fun start => .bind (reads_decorators hg c) fun decoration => ?_
  refine .seq ((continues_classFrom hg c false start decoration).mono (by simp)) fun ⟨_, node⟩ => ?_
  exact .pure (by simp [Expr.plain])

theorem reads_primary (hg : g.InOrder text) (c : Context) :
    Reads text (primary g c) fun e => ⟨true, spansOf e.code⟩ := by
  refine .of_step fun s hs => .token ?_
  split
  · split
    · exact (reads_classExpression hg c).step hs
    · exact (reads_wordExpression hg c _).step hs
  · refine (reads_shift.step hs).bind fun _ s' hstep => .pure ?_
    exact hstep.mono (by simp [Expr.plain])
  · exact (reads_shift.step hs).bind fun _ s' hstep => .pure (hstep.mono (by simp))
  · refine ((reads_template hg c false).step hs).bind fun code s' hstep => .pure ?_
    exact hstep.mono (by simp [Expr.plain])
  · rename_i hmark
    split
    · exact (reads_parenthesized hg c).step hs
    · exact (reads_array hg c).step hs
    · exact (reads_object hg c).step hs
    · rename_i hslash
      exact step_regex hs hmark (.inl hslash)
    · rename_i hslash
      exact step_regex hs hmark (.inr hslash)
    · exact (reads_classExpression hg c).step hs
    · exact .refuse
  · exact .refuse

theorem reads_operand (hg : g.InOrder text) (c : Context) :
    Reads text (operand g c) fun e => ⟨true, spansOf e.code⟩ := by
  refine .bind (reads_primary hg c) fun first => ?_
  refine .seq ((continues_chain hg c true first).mono (by simp)) fun ch => ?_
  exact .pure (by simp)

/-- An operand never ends before an opening parenthesis, on whatever line it stands. -/
theorem operand_takes_calls (g : Grammar) (c : Context) (s : ParseState) :
    Yields s (operand g c) fun _ s' => s'.token.isMark "(" = false := by
  refine .bind_any fun first s => .bind (Q := fun _ s' => s'.token.isMark "(" = false) ?_
    fun _ _ h => .pure h
  refine .loop (fun _ _ => True) trivial fun ch s _ => .token ?_
  split
  · exact .bind_any fun _ _ => .bind_any fun _ _ => .pure trivial
  · split
    · exact .bind_any fun _ _ => .pure trivial
    · split
      · exact .bind_any fun _ _ => .pure trivial
      · split
        · exact .bind_any fun _ _ => .bind_any fun _ _ => .pure trivial
        · split
          · exact .bind_any fun _ _ => .pure trivial
          · rename_i hcall
            exact .pure (by simpa using hcall)

theorem reads_callee (hg : g.InOrder text) (c : Context) :
    Reads text (callee g c) fun e => ⟨true, spansOf e.code⟩ := by
  refine .bind (reads_primary hg c) fun first => ?_
  refine .seq ((continues_chain hg c false first).mono (by simp)) fun ch => ?_
  exact .require fun _ => .pure (by simp)

theorem reads_update (hg : g.InOrder text) (c : Context) :
    Reads text (update g c) fun e => ⟨true, spansOf e.code⟩ := by
  refine .observe .token fun t => ?_
  split
  · refine .bind reads_advance fun _ => .bind (hg.unary c) fun e => .require fun _ => ?_
    exact .pure (by simp [Expr.plain])
  · refine .bind (reads_operand hg c) fun e => .observe .token fun after => ?_
    split
    · exact .require fun _ => .bind reads_advance fun _ => .pure (by simp [Expr.plain])
    · exact .pure (by simp)

theorem observes_atAwait (c : Context) : Observes (atAwait c) := by
  refine (Observes.atWord "await").bind fun found => ?_
  split
  · split
    · exact .pure _
    · exact .peekIs _
  · exact .pure _

theorem observes_atYield (c : Context) : Observes (atYield c) := by
  refine (Observes.atWord "yield").bind fun found => ?_
  split
  · split
    · exact .pure _
    · exact .peekIs _
  · exact .pure _

theorem reads_unary (hg : g.InOrder text) (c : Context) :
    Reads text (unary g c) fun e => ⟨true, spansOf e.code⟩ := by
  refine .observe .token fun t => ?_
  split
  · exact .bind reads_advance fun _ => .bind (hg.unary c) fun e => .pure (by simp)
  · refine .observe (observes_atAwait c) fun await => ?_
    split
    · refine .require fun _ => .bind reads_advance fun _ => .bind (hg.unary c) fun e => ?_
      exact .pure (by simp)
    · exact reads_update hg c

theorem reads_privateTest (hg : g.InOrder text) (c : Context) (level : Nat) :
    Reads text (privateTest g c level) fun e => ⟨true, spansOf e.code⟩ := by
  refine .require fun _ => .bind reads_shift fun _ => .bind (reads_expectWord "in") fun _ => ?_
  exact .bind (hg.binary c 8) fun e => .require fun _ => .pure (by simp)

theorem reads_binary (hg : g.InOrder text) (c : Context) (level : Nat) :
    Reads text (binary g c level) fun e => ⟨true, spansOf e.code⟩ := by
  refine .observe .token fun t => ?_
  extract_lets rest
  have hrest : ∀ first, Continues text ⟨true, spansOf first.code⟩ (rest first) fun e =>
      ⟨true, spansOf e.code⟩ := by
    intro first
    refine .loop (fun left => ⟨true, spansOf left.code⟩) (by simp) fun left => ?_
    refine .observe .token fun t => ?_
    split
    · exact .pure (by simp)
    · split
      · exact .pure (by simp)
      · split
        · exact .pure (by simp)
        · refine .bind reads_advance fun _ => .require fun _ => ?_
          refine .bind (hg.binary c _) fun right => ?_
          exact .require fun _ => .pure (by simp)
  split
  · exact .bind (reads_privateTest hg c level) fun first => (hrest first).mono (by simp)
  · exact .bind (reads_unary hg c) fun first => (hrest first).mono (by simp)

theorem reads_yieldExpression (hg : g.InOrder text) (c : Context) :
    Reads text (yieldExpression g c) fun e => ⟨true, spansOf e.code⟩ := by
  refine .require fun _ => .bind reads_advance fun _ => .observe .token fun t => ?_
  split
  · exact .pure (by simp [Expr.plain])
  · refine .bind (reads_eatMark "*") fun star => ?_
    split
    · exact .bind (hg.assignment c) fun e => .pure (by simp [Expr.plain])
    · split
      · exact .pure (by simp [Expr.plain])
      · exact .bind (hg.assignment c) fun e => .pure (by simp [Expr.plain])

theorem continues_conditional (hg : g.InOrder text) (c : Context) (test : Expr) :
    Continues text ⟨true, spansOf test.code⟩ (conditional g c test) fun e =>
      ⟨true, spansOf e.code⟩ := by
  refine .bind (reads_eatMark "?") fun found => ?_
  split
  · refine .bind (hg.assignment _) fun yes => .bind (reads_expectMark ":") fun _ => ?_
    exact .bind (hg.assignment c) fun no => .pure (by simp [Expr.plain])
  · exact .pure (by simp)

theorem continues_assignmentRest (hg : g.InOrder text) (c : Context) (left : Expr) :
    Continues text ⟨true, spansOf left.code⟩ (assignmentRest g c left) fun e =>
      ⟨true, spansOf e.code⟩ := by
  refine .observe (.atMark "=") fun plain => ?_
  extract_lets rest
  have hrest : ∀ u, Continues text ⟨true, spansOf left.code⟩ (rest u) fun e =>
      ⟨true, spansOf e.code⟩ := by
    intro u
    refine .bind reads_advance fun _ => .bind (hg.assignment c) fun right => ?_
    exact .pure (by simp)
  split
  · exact .bind (reads_assignTo left) fun u => (hrest u).mono (by simp)
  · exact .bind (reads_require _) fun u => (hrest u).mono (by simp)

theorem reads_assignment (hg : g.InOrder text) (c : Context) :
    Reads text (assignment g c) fun e => ⟨true, spansOf e.code⟩ := by
  refine .observe (observes_atYield c) fun yields => ?_
  split
  · exact reads_yieldExpression hg c
  · refine .bind (reads_parenthesizedArrow? hg c) fun arrow => ?_
    cases arrow with
    | some e => exact .pure (by simp [optionalSpans])
    | none =>
        refine .bind (reads_asyncArrow? hg c) fun arrow => ?_
        cases arrow with
        | some e => exact .pure (by simp [optionalSpans])
        | none =>
            refine .observe .here fun start => .bind (reads_binary hg c 0) fun left => ?_
            refine .observe .token fun t => ?_
            extract_lets rest
            have hrest : ∀ u, Continues text ⟨true, spansOf left.code⟩ (rest u) fun e =>
                ⟨true, spansOf e.code⟩ := by
              intro u
              show Continues text _ (if _ then _ else _) _
              split
              · exact continues_assignmentRest hg c left
              · exact continues_conditional hg c left
            split
            · split
              · -- The parameter was read as an identifier, which is no reference.
                refine .last (reads_simpleArrow hg c start false _) fun e => ⟨by simp, ?_⟩
                simp [optionalSpans]
              · exact (hrest ()).mono (by simp)
            · exact (hrest ()).mono (by simp)

end Parser
end Syntax
end EsModules
