import EsModules.Proofs.Syntax.Trail

/-!
# Sites in code

A `Site` is code in which one place is left open, and `Site.fill` puts code there.  The place may
lie anywhere: inside loops, functions and their parameters, classes and static blocks.

What the code at a site declares is seen around it in two ways only.  Names of `let`, `const`, class
and function declarations belong to the nearest scope around the site, and names of `var`
declarations to the nearest function.  `Site.exists_outside` says what this does to the identifiers
around the site, and `Site.exists_inside` to those of the code itself; both are read off the
constructs around the site, one after the other.
-/

namespace EsModules
namespace Syntax

/-- A construct in whose code one place is left open. -/
inductive Layer where
  /-- A property, open in its key. -/
  | propertyKey (value : List Node)
  /-- A property, open in its value. -/
  | propertyValue (key : List Node)
  | target (span : Span) (name : String)
  | bindings (kind : VariableKind) (patterns : List Pattern)
  /-- A function, open in the code of its parameters. -/
  | functionHead (declared : Bool) (span : Span) (name : Option String) (parameters : List Pattern)
      (body : List Node)
  /-- A function, open in its body. -/
  | functionBody (declared : Bool) (span : Span) (name : Option String) (parameters : List Pattern)
      (head : List Node)
  | classDef (declared : Bool) (span : Span) (name : Option String)
  | staticBlock
  | block (span : Span)
  | loop (kind : LoopKind) (span : Span)
  /-- A switch, open in the value that it compares. -/
  | switchSubject (span : Span) (cases : List Node)
  /-- A switch, open in its cases. -/
  | switchCases (span : Span) (subject : List Node)
  | handler (span : Span) (parameter : Option Pattern)

namespace Layer

/-- The construct with its code. -/
def node : Layer → List Node → Node
  | propertyKey value, code => .property code value
  | propertyValue key, code => .property key code
  | target span name, code => .target span name code
  | bindings kind patterns, code => .bindings kind patterns code
  | functionHead declared span name parameters body, code =>
      .function declared span name parameters code body
  | functionBody declared span name parameters head, code =>
      .function declared span name parameters head code
  | classDef declared span name, code => .classDef declared span name code
  | staticBlock, code => .staticBlock code
  | block span, code => .block span code
  | loop kind span, code => .loop kind span code
  | switchSubject span cases, code => .switch span code cases
  | switchCases span subject, code => .switch span subject code
  | handler span parameter, code => .handler span parameter code

/-- The code of the construct that its scope does not hold. -/
def outside : Layer → List Node
  | switchCases _ subject => subject
  | _ => []

/-- The code of the construct before the open place. -/
def front : Layer → List Node
  | propertyValue key => key
  | target span name => [.shorthand span name]
  | functionBody _ _ _ _ head => head
  | _ => []

/-- The code of the construct behind the open place.  The cases of a switch are a block there. -/
def back : Layer → List Node
  | propertyKey value => value
  | functionHead _ _ _ _ body => body
  | switchSubject span cases => [.block span cases]
  | _ => []

/-- The code of the construct, without that outside its scope. -/
def code (layer : Layer) (inner : List Node) : List Node :=
  layer.front ++ inner ++ layer.back

/-- A `var` declaration reaches no further than this construct. -/
def isFunction : Layer → Bool
  | functionHead _ _ _ _ _ => true
  | functionBody _ _ _ _ _ => true
  | _ => false

/-- The construct opens a scope. -/
def isScope : Layer → Bool
  | propertyKey _ => false
  | propertyValue _ => false
  | target _ _ => false
  | bindings _ _ => false
  | staticBlock => false
  | switchSubject _ _ => false
  | _ => true

/-- The names of the scope that the construct opens. -/
def scope? : Layer → List Node → Option (List String)
  | functionHead declared _ name parameters body, code =>
      some (functionScope declared name parameters code body)
  | functionBody declared _ name parameters head, code =>
      some (functionScope declared name parameters head code)
  | classDef declared _ name, code => some (classScope declared name code)
  | block _, code => some (blockNamesOf code)
  | loop _ _, code => some (blockNamesOf code)
  | switchCases _ _, code => some (blockNamesOf code)
  | handler _ parameter, code => some (handlerScope parameter code)
  | _, _ => none

end Layer

/-- Code with one place left open. -/
inductive Site where
  | here (before after : List Node)
  /-- The place lies inside a construct. -/
  | under (before : List Node) (layer : Layer) (inner : Site) (after : List Node)

namespace Site

/-- The code, with the open place filled. -/
def fill : Site → List Node → List Node
  | here before after, code => before ++ code ++ after
  | under before layer inner after, code => before ++ layer.node (inner.fill code) :: after

/-- More code is put around everything. -/
def between (before after : List Node) : Site → Site
  | here before' after' => here (before ++ before') (after' ++ after)
  | under before' layer inner after' => under (before ++ before') layer inner (after' ++ after)

/-- A site in the code that fills the open place. -/
def comp : Site → Site → Site
  | here before after, inner => inner.between before after
  | under before layer site after, inner => under before layer (site.comp inner) after

/-- The code of the nearest construct of a kind around the open place, which is left empty. -/
def nearest (p : Layer → Bool) : Site → Option (List Node)
  | here _ _ => none
  | under _ layer inner _ =>
      match inner.nearest p with
      | some code => some code
      | none => if p layer then some (layer.code (inner.fill [])) else none

/-- The names of each scope around the open place, which is left empty, innermost first. -/
def scopes : Site → List (List String)
  | here _ _ => []
  | under _ layer inner _ => inner.scopes ++ (layer.scope? (inner.fill [])).toList

/-- The bytes belong to an identifier in the nearest construct of a kind around the open place. -/
def Reaches (site : Site) (p : Layer → Bool) (span : Span) : Prop :=
  ∃ code, site.nearest p = some code ∧ span ∈ spansOf code

end Site

/-! ### Names -/

theorem blockNamesOf_append (as bs : List Node) :
    blockNamesOf (as ++ bs) = blockNamesOf as ++ blockNamesOf bs := by
  induction as with
  | nil => rfl
  | cons node as ih => rw [List.cons_append, blockNamesOf, blockNamesOf, ih, List.append_assoc]

theorem varNamesOf_append (as bs : List Node) :
    varNamesOf (as ++ bs) = varNamesOf as ++ varNamesOf bs := by
  induction as with
  | nil => rfl
  | cons node as ih => rw [List.cons_append, varNamesOf, varNamesOf, ih, List.append_assoc]

theorem importNamesOf_append (as bs : List Node) :
    importNamesOf (as ++ bs) = importNamesOf as ++ importNamesOf bs := by
  induction as with
  | nil => rfl
  | cons node as ih => rw [List.cons_append, importNamesOf, importNamesOf, ih, List.append_assoc]

namespace Layer

variable {code code' : List Node} {x : String} {p q : Prop}

/-- Only a construct that opens no scope hands block names on. -/
theorem mem_blockNames_node
    (layer : Layer)
    (h : x ∈ blockNamesOf code ↔ x ∈ blockNamesOf code' ∨ p) :
    x ∈ (layer.node code).blockNames ↔
      x ∈ (layer.node code').blockNames ∨ (layer.isScope = false ∧ p) := by
  cases layer with
  | propertyKey value => simp [node, Node.blockNames, isScope, h, or_right_comm]
  | propertyValue key => simp [node, Node.blockNames, isScope, h, or_assoc]
  | target span name => simp [node, Node.blockNames, isScope, h]
  | bindings kind patterns => simp [node, Node.blockNames, isScope, h, or_assoc]
  | staticBlock => simp [node, Node.blockNames, isScope, h]
  | switchSubject span cases => simp [node, Node.blockNames, isScope, h]
  | _ => simp [node, Node.blockNames, isScope]

/-- Only a function keeps the names of `var` declarations. -/
theorem mem_varNames_node
    (layer : Layer)
    (h : x ∈ varNamesOf code ↔ x ∈ varNamesOf code' ∨ q) :
    x ∈ (layer.node code).varNames ↔
      x ∈ (layer.node code').varNames ∨ (layer.isFunction = false ∧ q) := by
  cases layer with
  | propertyKey value => simp [node, Node.varNames, isFunction, h, or_right_comm]
  | switchSubject span cases => simp [node, Node.varNames, isFunction, h, or_right_comm]
  | functionHead => simp [node, Node.varNames, isFunction]
  | functionBody => simp [node, Node.varNames, isFunction]
  | _ => simp [node, Node.varNames, isFunction, h, or_assoc]

/-- What a scope gains from the code in it. -/
theorem mem_scope?
    (layer : Layer)
    (hblock : x ∈ blockNamesOf code ↔ x ∈ blockNamesOf code' ∨ p)
    (hvar : x ∈ varNamesOf code ↔ x ∈ varNamesOf code' ∨ q) :
    (∀ scope ∈ layer.scope? code, x ∉ scope) ↔
      (∀ scope ∈ layer.scope? code', x ∉ scope) ∧
        ¬(layer.isScope = true ∧ p) ∧ ¬(layer.isFunction = true ∧ q) := by
  cases layer with
  | functionHead =>
      simp only [scope?, functionScope, isScope, isFunction, Option.mem_some, forall_eq',
        List.mem_append, hblock, hvar]
      grind
  | functionBody =>
      simp only [scope?, functionScope, isScope, isFunction, Option.mem_some, forall_eq',
        List.mem_append, hblock, hvar]
      grind
  | classDef =>
      simp only [scope?, classScope, isScope, isFunction, Option.mem_some, forall_eq',
        List.mem_append, hblock]
      grind
  | block => simp [scope?, isScope, isFunction, hblock]
  | loop => simp [scope?, isScope, isFunction, hblock]
  | switchCases => simp [scope?, isScope, isFunction, hblock]
  | handler =>
      simp only [scope?, handlerScope, isScope, isFunction, Option.mem_some, forall_eq',
        List.mem_append, hblock]
      grind
  | _ => simp [scope?, isScope, isFunction]

end Layer

/-! ### Identifiers -/

namespace Occurrence

/-- No scope around the identifier inside the module declares its name. -/
def Free (o : Occurrence) : Prop :=
  ∀ scope ∈ o.around, o.name ∉ scope

instance (o : Occurrence) : Decidable o.Free :=
  inferInstanceAs (Decidable (∀ scope ∈ o.around, o.name ∉ scope))

/-- The same identifier, seen from outside a construct that may open a scope. -/
def under (scope : Option (List String)) (o : Occurrence) : Occurrence :=
  { o with around := o.around ++ scope.toList }

theorem free_under (scope : Option (List String)) (o : Occurrence) :
    (o.under scope).Free ↔ o.Free ∧ ∀ names ∈ scope, o.name ∉ names := by
  cases scope with
  | none => simp [Free, under]
  | some names => simp [Free, under, or_imp, forall_and]

end Occurrence

/-- The identifiers of a construct are those outside its scope and those of its code inside. -/
theorem Layer.occurrences_node (layer : Layer) (code : List Node) :
    (layer.node code).occurrences =
      occurrencesOf layer.outside ++
        (occurrencesOf (layer.code code)).map (·.under (layer.scope? code)) := by
  have hnone : ∀ found : List Occurrence, found.map (·.under none) = found := by
    intro found
    simp [Occurrence.under]
  have hsome : ∀ (scope : List String) (found : List Occurrence),
      found.map (·.under (some scope)) = found.map (·.within scope) :=
    fun _ _ => rfl
  cases layer <;>
    simp [node, Node.occurrences, Layer.code, outside, front, back, scope?, occurrencesOf,
      occurrencesOf_append, hnone, hsome, -List.map_append, -List.map_map]

theorem Layer.spans_node (layer : Layer) (code : List Node) :
    (layer.node code).spans = spansOf layer.outside ++ spansOf (layer.code code) := by
  rw [Node.spans, occurrences_node, List.map_append, List.map_map]
  rfl

namespace Site

variable {site : Site} {code : List Node} {p : Layer → Bool}

theorem fill_between (before after : List Node) (site : Site) (code : List Node) :
    (site.between before after).fill code = before ++ site.fill code ++ after := by
  cases site <;> simp [between, fill]

theorem fill_comp (site inner : Site) (code : List Node) :
    (site.comp inner).fill code = site.fill (inner.fill code) := by
  induction site with
  | here before after => simp [comp, fill, fill_between]
  | under before layer site after ih => simp [comp, fill, ih]

theorem nearest_between (before after : List Node) (site : Site) :
    (site.between before after).nearest p = site.nearest p := by
  cases site <;> rfl

theorem scopes_between (before after : List Node) (site : Site) :
    (site.between before after).scopes = site.scopes := by
  cases site <;> rfl

theorem reaches_between (before after : List Node) (site : Site) (span : Span) :
    (site.between before after).Reaches p span ↔ site.Reaches p span := by
  rw [Reaches, nearest_between, Reaches]

theorem nearest_under_eq_none
    {before after : List Node}
    {layer : Layer} :
    (under before layer site after).nearest p = none ↔ site.nearest p = none ∧ p layer = false := by
  cases hinner : site.nearest p with
  | some code => simp [nearest, hinner]
  | none => cases hlayer : p layer <;> simp [nearest, hinner, hlayer]

/-- A construct in the inner code is nearer than those of the outer site. -/
theorem nearest_comp_of_some
    {inner : Site}
    (h : inner.nearest p = some code) :
    (site.comp inner).nearest p = some code := by
  induction site with
  | here before after => rw [comp, nearest_between, h]
  | under before layer site after ih => rw [comp, nearest, ih]

theorem nearest_comp_eq_none
    {inner : Site} :
    (site.comp inner).nearest p = none ↔ site.nearest p = none ∧ inner.nearest p = none := by
  induction site with
  | here before after => simp [comp, nearest_between, nearest]
  | under before layer site after ih =>
      simp only [comp, nearest_under_eq_none, ih]
      tauto

/-! ### What a site lets through -/

theorem mem_blockNamesOf_fill (site : Site) (code : List Node) (x : String) :
    x ∈ blockNamesOf (site.fill code) ↔
      x ∈ blockNamesOf (site.fill []) ∨
        (site.nearest Layer.isScope = none ∧ x ∈ blockNamesOf code) := by
  induction site with
  | here before after =>
      simp only [fill, nearest, blockNamesOf_append, blockNamesOf, List.mem_append]
      tauto
  | under before layer inner after ih =>
      have hnode := layer.mem_blockNames_node ih
      simp only [fill, blockNamesOf_append, blockNamesOf, List.mem_append, hnode,
        nearest_under_eq_none]
      grind

theorem mem_varNamesOf_fill (site : Site) (code : List Node) (x : String) :
    x ∈ varNamesOf (site.fill code) ↔
      x ∈ varNamesOf (site.fill []) ∨
        (site.nearest Layer.isFunction = none ∧ x ∈ varNamesOf code) := by
  induction site with
  | here before after =>
      simp only [fill, nearest, varNamesOf_append, varNamesOf, List.mem_append]
      tauto
  | under before layer inner after ih =>
      have hnode := layer.mem_varNames_node ih
      simp only [fill, varNamesOf_append, varNamesOf, List.mem_append, hnode,
        nearest_under_eq_none]
      grind

/-- What a construct around the site gains from the code there. -/
theorem scope?_fill (layer : Layer) (site : Site) (code : List Node) (x : String) :
    (∀ scope ∈ layer.scope? (site.fill code), x ∉ scope) ↔
      (∀ scope ∈ layer.scope? (site.fill []), x ∉ scope) ∧
        ¬(layer.isScope = true ∧ site.nearest Layer.isScope = none ∧ x ∈ blockNamesOf code) ∧
        ¬(layer.isFunction = true ∧ site.nearest Layer.isFunction = none ∧
          x ∈ varNamesOf code) :=
  layer.mem_scope? (site.mem_blockNamesOf_fill code x) (site.mem_varNamesOf_fill code x)

/-- The identifiers of a site stand around those of the code there. -/
theorem spansOf_fill (site : Site) :
    ∃ front back, ∀ code, spansOf (site.fill code) = front ++ spansOf code ++ back := by
  induction site with
  | here before after => exact ⟨spansOf before, spansOf after, fun code => by simp [fill]⟩
  | under before layer inner after ih =>
      obtain ⟨front, back, hinner⟩ := ih
      refine ⟨spansOf before ++ spansOf layer.outside ++ spansOf layer.front ++ front,
        back ++ spansOf layer.back ++ spansOf after, fun code => ?_⟩
      simp [fill, Layer.spans_node, Layer.code, hinner]

theorem spansOf_fill_nil_sublist (site : Site) (code : List Node) :
    (spansOf (site.fill [])).Sublist (spansOf (site.fill code)) := by
  obtain ⟨front, back, h⟩ := site.spansOf_fill
  rw [h, h]
  simp

theorem nodup_of_fill
    (site : Site)
    (h : (spansOf (site.fill code)).Nodup) :
    (spansOf code).Nodup := by
  obtain ⟨front, back, hspans⟩ := site.spansOf_fill
  rw [hspans] at h
  exact (List.nodup_append.mp (List.nodup_append.mp h).1).2.1

/-- The nearest construct lies inside, or it is the outermost one. -/
theorem reaches_under
    {before after : List Node}
    {layer : Layer}
    {span : Span} :
    (under before layer site after).Reaches p span ↔
      site.Reaches p span ∨
        (site.nearest p = none ∧ p layer = true ∧ span ∈ spansOf (layer.code (site.fill []))) := by
  cases hinner : site.nearest p with
  | some code => simp [Reaches, nearest, hinner]
  | none => cases hlayer : p layer <;> simp [Reaches, nearest, hinner, hlayer]

/-- The nearest construct of a kind is part of the code. -/
theorem Reaches.mem_spansOf
    {span : Span}
    (h : site.Reaches p span) :
    span ∈ spansOf (site.fill []) := by
  induction site with
  | here before after =>
      obtain ⟨code, hcode, -⟩ := h
      cases hcode
  | under before layer inner after ih =>
      rcases reaches_under.mp h with h | ⟨-, -, h⟩
      · simp [fill, Layer.spans_node, Layer.code, ih h]
      · simp [fill, Layer.spans_node, h]

/-- An identifier around a site, once with `code` there and once with the site left empty: the code
shadows it exactly if it declares the name in the nearest scope, or with `var` in the nearest
function, and the identifier lies in there. -/
structure Seen (site : Site) (code : List Node) (o o' : Occurrence) : Prop where
  name : o'.name = o.name
  span : o'.span = o.span
  free :
    o.Free ↔ o'.Free ∧
      ¬(o.name ∈ blockNamesOf code ∧ site.Reaches Layer.isScope o.span) ∧
      ¬(o.name ∈ varNamesOf code ∧ site.Reaches Layer.isFunction o.span)

/-- An identifier that no scope of the site holds is not touched. -/
theorem Seen.of_not_reaches
    {o : Occurrence}
    (h : ∀ p, ¬site.Reaches p o.span) :
    site.Seen code o o :=
  ⟨rfl, rfl, by simp [h]⟩

/-- One more construct is put around the site and the identifier. -/
theorem Seen.under
    {o o' : Occurrence}
    {layer : Layer}
    (h : site.Seen code o o')
    (hspan : o.span ∈ spansOf (layer.code (site.fill [])))
    (before after : List Node) :
    (under before layer site after).Seen code (o.under (layer.scope? (site.fill code)))
      (o'.under (layer.scope? (site.fill []))) := by
  refine ⟨h.name, h.span, ?_⟩
  have hscope := scope?_fill layer site code o.name
  have hfree := h.free
  rw [Occurrence.free_under, Occurrence.free_under, hscope, hfree, h.name]
  simp only [Occurrence.under, reaches_under, hspan, and_true]
  grind

/-- The nearest construct of a kind lies in the outermost one. -/
theorem Reaches.mem_layer
    {before after : List Node}
    {layer : Layer}
    {span : Span}
    (h : (Site.under before layer site after).Reaches p span)
    (code : List Node) :
    span ∈ spansOf (layer.code (site.fill code)) := by
  have hsubset := (site.spansOf_fill_nil_sublist code).subset
  rcases reaches_under.mp h with h | ⟨-, -, h⟩
  · simp [Layer.code, hsubset h.mem_spansOf]
  · simp only [Layer.code, spansOf_append, List.mem_append] at h ⊢
    exact h.imp_left (·.imp_right (@hsubset span))

/-- The identifiers of code with a construct in it: those before its scope, in it and behind it. -/
theorem mem_occurrencesOf_under
    {before after : List Node}
    {layer : Layer}
    {o : Occurrence} :
    o ∈ occurrencesOf ((under before layer site after).fill code) ↔
      o ∈ occurrencesOf (before ++ layer.outside) ∨
        (∃ o' ∈ occurrencesOf (layer.code (site.fill code)),
          o'.under (layer.scope? (site.fill code)) = o) ∨
        o ∈ occurrencesOf after := by
  simp only [fill, occurrencesOf_append, occurrencesOf, Layer.occurrences_node, List.mem_append,
    List.mem_map, or_assoc]

/-- Every identifier around a site is there also when the site is left empty. -/
theorem exists_outside
    (site : Site)
    (code : List Node)
    (hspans : (spansOf (site.fill code)).Nodup)
    {o : Occurrence}
    (ho : o ∈ occurrencesOf (site.fill code))
    (hout : o.span ∉ spansOf code) :
    ∃ o' ∈ occurrencesOf (site.fill []), site.Seen code o o' := by
  induction site generalizing o with
  | here before after =>
      have hnot : ∀ p, ¬(here before after).Reaches p o.span := by
        rintro p ⟨code, hcode, -⟩
        cases hcode
      refine ⟨o, ?_, .of_not_reaches hnot⟩
      simp only [fill, occurrencesOf_append, List.mem_append] at ho ⊢
      rcases ho with (ho | ho) | ho
      · exact .inl (.inl ho)
      · exact absurd (mem_spansOf ho) hout
      · exact .inr ho
  | under before layer inner after ih =>
      simp only [fill, spansOf_append, spansOf_cons, Layer.spans_node, List.append_assoc] at hspans
      rw [← List.append_assoc, ← spansOf_append] at hspans
      obtain ⟨-, hspans, hbefore⟩ := List.nodup_append.mp hspans
      obtain ⟨hlayer, -, hafter⟩ := List.nodup_append.mp hspans
      rw [mem_occurrencesOf_under] at ho
      simp only [mem_occurrencesOf_under]
      rcases ho with ho | ⟨o, ho, rfl⟩ | ho
      · refine ⟨o, .inl ho, .of_not_reaches fun p hp => ?_⟩
        exact hbefore _ (mem_spansOf ho) _ (List.mem_append_left _ (hp.mem_layer code)) rfl
      · -- what is beside the open place in the construct is treated like what is farther outside
        obtain ⟨o', ho', hseen⟩ : ∃ o' ∈ occurrencesOf (layer.code (inner.fill [])),
            inner.Seen code o o' := by
          simp only [Layer.code, spansOf_append] at hlayer
          obtain ⟨hinner, -, hback⟩ := List.nodup_append.mp hlayer
          obtain ⟨-, hinner, hfront⟩ := List.nodup_append.mp hinner
          have hsubset := (inner.spansOf_fill_nil_sublist code).subset
          simp only [Layer.code, occurrencesOf_append, List.mem_append] at ho ⊢
          rcases ho with (ho | ho) | ho
          · refine ⟨o, .inl (.inl ho), .of_not_reaches fun p hp => ?_⟩
            exact hfront _ (mem_spansOf ho) _ (hsubset hp.mem_spansOf) rfl
          · obtain ⟨o', ho', hseen⟩ := ih hinner ho hout
            exact ⟨o', .inl (.inr ho'), hseen⟩
          · refine ⟨o, .inr ho, .of_not_reaches fun p hp => ?_⟩
            exact hback _ (List.mem_append_right _ (hsubset hp.mem_spansOf)) _ (mem_spansOf ho) rfl
        have hspan : o.span ∈ spansOf (layer.code (inner.fill [])) := hseen.span ▸ mem_spansOf ho'
        exact ⟨_, .inr (.inl ⟨o', ho', rfl⟩), hseen.under hspan before after⟩
      · refine ⟨o, .inr (.inr ho), .of_not_reaches fun p hp => ?_⟩
        exact hafter _ (hp.mem_layer code) _ (mem_spansOf ho) rfl

/-- An identifier of the code at a site is shadowed by a scope inside the code, by one around the
site, or by the code itself if a scope of the site takes its names. -/
theorem exists_inside
    (site : Site)
    (code : List Node)
    {o : Occurrence}
    (ho : o ∈ occurrencesOf code) :
    ∃ o' ∈ occurrencesOf (site.fill code), o'.name = o.name ∧ o'.span = o.span ∧
      (o'.Free ↔ o.Free ∧ (∀ scope ∈ site.scopes, o.name ∉ scope) ∧
        ¬(o.name ∈ blockNamesOf code ∧ site.nearest Layer.isScope ≠ none) ∧
        ¬(o.name ∈ varNamesOf code ∧ site.nearest Layer.isFunction ≠ none)) := by
  induction site with
  | here before after =>
      exact ⟨o, by simp [fill, occurrencesOf_append, ho], rfl, rfl, by simp [scopes, nearest]⟩
  | under before layer inner after ih =>
      obtain ⟨o', ho', hname, hspan, hfree⟩ := ih
      refine ⟨o'.under (layer.scope? (inner.fill code)), ?_, hname, hspan, ?_⟩
      · rw [mem_occurrencesOf_under]
        exact .inr (.inl ⟨o', by simp [Layer.code, occurrencesOf_append, ho'], rfl⟩)
      · have hscope := scope?_fill layer inner code o.name
        have hscopes : (∀ scope ∈ (Site.under before layer inner after).scopes, o.name ∉ scope) ↔
            (∀ scope ∈ inner.scopes, o.name ∉ scope) ∧
              ∀ scope ∈ layer.scope? (inner.fill []), o.name ∉ scope := by
          simp only [scopes, List.forall_mem_append, Option.mem_toList, Option.mem_def]
        rw [Occurrence.free_under, hfree, hname, hscope, hscopes]
        simp only [ne_eq, nearest_under_eq_none]
        grind

end Site

end Syntax
end EsModules
