import EsModules.Proofs.Catalog.Entries
import EsModules.Proofs.Scope.Site
import EsModules.Proofs.Transpile.References
import Mathlib.Tactic.Common

/-!
# Declarations that shadow imports

A declaration inside a module keeps references to an import of the same name from being replaced.
How far it reaches is found by comparing a module with one that differs from it at a single place of
its code, a `Spot`: the code there is left out, and nothing else changes.

Two constructs have no scope of their own, where a reader of the module might expect one:

* a static block of a class.  What it declares belongs to the class, and its `var` declarations to
  the function around the class (`staticBlock_replaced_iff`);
* the parameters of a function.  They stand in one scope with the body, so what the body declares
  reaches into their default values (`initialiser_replaced_iff`).
-/

namespace EsModules

namespace Syntax

/-- The statement with other code; imports and lists of exports have none. -/
def Item.withCode (code : List Node) : Item → Item
  | .exportDeclaration span inner exported _ => .exportDeclaration span inner exported code
  | .exportDefault span inner value _ => .exportDefault span inner value code
  | .statement span text _ => .statement span text code
  | item => item

namespace Site

/-- A class whose static block is left open. -/
def staticBlock
    (declared : Bool)
    (span : Span)
    (name : Option String)
    (before after : List Node) :
    Site :=
  under [] (.classDef declared span name) (under before .staticBlock (here [] []) after) []

/-- A function whose body is left open. -/
def functionBody
    (declared : Bool)
    (span : Span)
    (name : Option String)
    (parameters : List Pattern)
    (head : List Node) :
    Site :=
  under [] (.functionBody declared span name parameters head) (here [] []) []

section

variable {declared : Bool} {span : Span} {name : Option String} {parameters : List Pattern}
variable {before after head code : List Node}

theorem fill_staticBlock :
    (staticBlock declared span name before after).fill code =
      [.classDef declared span name (before ++ .staticBlock code :: after)] := by
  simp [staticBlock, fill, Layer.node]

/-- The block opens no scope: the nearest one is the class. -/
theorem nearest_staticBlock :
    (staticBlock declared span name before after).nearest Layer.isScope =
      some (before ++ .staticBlock [] :: after) := by
  simp [staticBlock, nearest, fill, Layer.node, Layer.isScope, Layer.code, Layer.front, Layer.back]

/-- A class is no function. -/
theorem nearest_isFunction_staticBlock :
    (staticBlock declared span name before after).nearest Layer.isFunction = none :=
  rfl

theorem fill_functionBody :
    (functionBody declared span name parameters head).fill code =
      [.function declared span name parameters head code] := by
  simp [functionBody, fill, Layer.node]

/-- The function is one scope, for its parameters and its body. -/
theorem nearest_functionBody
    {p : Layer → Bool}
    (h : p (.functionBody declared span name parameters head) = true) :
    (functionBody declared span name parameters head).nearest p = some head := by
  simp [functionBody, nearest, h, fill, Layer.code, Layer.front, Layer.back]

end

end Site

/-- A place in the code of a module: one of its statements, and a site in the code of that. -/
structure Spot where
  before : List Item
  item : Item
  site : Site
  after : List Item
  /-- The statement has code of its own. -/
  code_withCode : ∀ code, (item.withCode code).code = code

namespace Spot

/-- The statements of the module, with code at the spot. -/
def items (spot : Spot) (code : List Node) : List Item :=
  spot.before ++ spot.item.withCode (spot.site.fill code) :: spot.after

/-- The module with other code at the spot. -/
def put (spot : Spot) (program : Program) (code : List Node) : Program :=
  { program with items := spot.items code }

/-- The spot as a site in the code of the whole module. -/
def whole (spot : Spot) : Site :=
  spot.site.between (spot.before.flatMap Item.code) (spot.after.flatMap Item.code)

/-- A spot in the code that is put at the spot. -/
def inside (spot : Spot) (inner : Site) : Spot :=
  { spot with site := spot.site.comp inner }

theorem items_inside (spot : Spot) (inner : Site) (code : List Node) :
    (spot.inside inner).items code = spot.items (inner.fill code) := by
  simp [items, inside, Site.fill_comp]

theorem flatMap_code (spot : Spot) (code : List Node) :
    (spot.items code).flatMap Item.code = spot.whole.fill code := by
  simp [items, whole, Site.fill_between, spot.code_withCode]

/-- What a module imports and exports does not depend on the code at a spot. -/
theorem build_items
    (spot : Spot)
    (text : String)
    (hashbang : Option Span)
    (directives : List Span)
    (code code' : List Node) :
    Catalog.build text ⟨hashbang, directives, spot.items code⟩ =
      Catalog.build text ⟨hashbang, directives, spot.items code'⟩ := by
  have hitem : ∀ c code code',
      Catalog.addItem text c (spot.item.withCode code) =
        Catalog.addItem text c (spot.item.withCode code') := by
    intro c code code'
    cases spot.item <;> rfl
  simp only [Catalog.build, items, List.foldlM_append, List.foldlM_cons]
  simp only [hitem _ (spot.site.fill code) (spot.site.fill code')]

end Spot

end Syntax

namespace Transpile

open Syntax

/-- The places where the code of a module is made to read an import. -/
def replacedSpans (program : Program) (view : ModuleView) : Except TranspileError (List Span) :=
  (referenceEdits (ScopeTable.build program) view (ScopeTable.build program).references).map
    (·.map (·.span))

/-- The name of every import belongs to the module. -/
theorem mem_scopeNames_of_import
    {text : String}
    {program : Program}
    {catalog : Catalog}
    (hcatalog : Catalog.build text program = .ok catalog)
    {i : ImportEntry}
    (hi : i ∈ catalog.imports) :
    i.name ∈ program.scopeNames := by
  rw [(Catalog.lists_build hcatalog).1] at hi
  obtain ⟨item, hitem, hi⟩ := List.mem_flatMap.mp hi
  obtain ⟨before, after, hitems⟩ := List.append_of_mem hitem
  cases item with
  | imports span source bindings =>
      obtain ⟨b, hb, rfl⟩ := List.mem_map.mp hi
      have hname : b.name ∈ bindings.map (·.name) := List.mem_map_of_mem hb
      have hcode : b.name ∈ importNamesOf program.code := by
        simp [Program.code, hitems, Item.code, importNamesOf_append, importNamesOf,
          Node.importNames, hname]
      exact List.mem_append_right _ hcode
  | _ => cases hi

/-- An identifier is replaced if and only if it names an import and no scope around it inside the
module declares its name. -/
theorem replacedSpans_eq_ok
    {text : String}
    {program : Program}
    {view : ModuleView}
    (hcatalog : Catalog.build text program = .ok view.catalog)
    (hspans : (spansOf program.code).Nodup) :
    ∃ spans, replacedSpans program view = .ok spans ∧
      ∀ o ∈ program.occurrences,
        o.span ∈ spans ↔ (∃ i ∈ view.catalog.imports, i.name = o.name) ∧ o.Free := by
  have hclosed := (Catalog.covers_build hcatalog).closed
  have hedits := referenceEdits_eq hclosed (ScopeTable.build_references program)
  refine ⟨_, by rw [replacedSpans, hedits]; rfl, fun o ho => ?_⟩
  have hrefers : (∃ e, renaming? program view o = some e) ↔
      (∃ i ∈ view.catalog.imports, i.name = o.name) ∧ o.Free := by
    rw [renaming?_isSome_iff program _ hclosed o, o.refersToModule_iff]
    constructor
    · rintro ⟨himport, -, hfree⟩
      exact ⟨himport, hfree⟩
    · rintro ⟨⟨i, hi, hname⟩, hfree⟩
      exact ⟨⟨i, hi, hname⟩, hname ▸ mem_scopeNames_of_import hcatalog hi, hfree⟩
  rw [← hrefers]
  constructor
  · intro hspan
    obtain ⟨e, he, hspan⟩ := List.mem_map.mp hspan
    obtain ⟨o', ho', hedit⟩ := List.mem_filterMap.mp he
    have hsame : o' = o :=
      List.inj_on_of_nodup_map hspans ho' ho ((span_of_renaming? hedit).symm.trans hspan)
    exact ⟨e, hsame ▸ hedit⟩
  · rintro ⟨e, hedit⟩
    exact List.mem_map.mpr ⟨e, List.mem_filterMap.mpr ⟨o, ho, hedit⟩, span_of_renaming? hedit⟩

/-- A module and the same module without the code at a spot: which identifiers around the code are
replaced in both, and which of the code itself. -/
theorem replacedSpans_spot
    {text : String}
    {program : Program}
    {view : ModuleView}
    (hparse : Program.parse text = .ok program)
    (hcatalog : Catalog.build text program = .ok view.catalog)
    (spot : Spot)
    (code : List Node)
    (hitems : program.items = spot.items code) :
    Catalog.build text (spot.put program []) = .ok view.catalog ∧
      ∃ spans spans₀,
        replacedSpans program view = .ok spans ∧
        replacedSpans (spot.put program []) view = .ok spans₀ ∧
        (∀ o ∈ occurrencesOf code,
          o.span ∈ spans ↔
            (∃ i ∈ view.catalog.imports, i.name = o.name) ∧
              (∀ scope ∈ o.around ++ spot.site.scopes, o.name ∉ scope) ∧
              ¬(o.name ∈ blockNamesOf code ∧ spot.site.nearest Layer.isScope ≠ none) ∧
              ¬(o.name ∈ varNamesOf code ∧ spot.site.nearest Layer.isFunction ≠ none)) ∧
        ∀ o ∈ program.occurrences, o.span ∉ spansOf code →
          (o.span ∈ spans ↔
            o.span ∈ spans₀ ∧
              ¬(o.name ∈ blockNamesOf code ∧ spot.site.Reaches Layer.isScope o.span) ∧
              ¬(o.name ∈ varNamesOf code ∧ spot.site.Reaches Layer.isFunction o.span)) := by
  obtain ⟨hashbang, directives, items⟩ := program
  subst hitems
  have hcode : (⟨hashbang, directives, spot.items code⟩ : Program).code = spot.whole.fill code :=
    spot.flatMap_code code
  have hcode₀ : (⟨hashbang, directives, spot.items []⟩ : Program).code = spot.whole.fill [] :=
    spot.flatMap_code []
  have hcatalog₀ : Catalog.build text ⟨hashbang, directives, spot.items []⟩ = .ok view.catalog :=
    (spot.build_items text hashbang directives [] code).trans hcatalog
  have hnodup : (spansOf (spot.whole.fill code)).Nodup := hcode ▸ nodup_spans_occurrences hparse
  have hnodup₀ : (spansOf (spot.whole.fill [])).Nodup :=
    hnodup.sublist (spot.whole.spansOf_fill_nil_sublist code)
  obtain ⟨spans, hspans, hiff⟩ := replacedSpans_eq_ok hcatalog (hcode ▸ hnodup)
  obtain ⟨spans₀, hspans₀, hiff₀⟩ := replacedSpans_eq_ok hcatalog₀ (hcode₀ ▸ hnodup₀)
  simp only [Program.occurrences, hcode, hcode₀] at hiff hiff₀ ⊢
  refine ⟨hcatalog₀, spans, spans₀, hspans, hspans₀, ?_, ?_⟩
  · intro o ho
    obtain ⟨o', ho', hname, hspan, hfree⟩ := spot.whole.exists_inside code ho
    rw [← hspan, hiff o' ho', hfree, hname, Spot.whole, Site.scopes_between, Site.nearest_between,
      Site.nearest_between, List.forall_mem_append, Occurrence.Free, and_assoc]
  · intro o ho hout
    obtain ⟨o', ho', hseen⟩ := spot.whole.exists_outside code hnodup ho hout
    rw [hiff o ho, ← hseen.span, hiff₀ o' ho', hseen.free, hseen.name, Spot.whole,
      Site.reaches_between, Site.reaches_between, hseen.span, and_assoc]

/-! ### Static blocks -/

/-- What the static block of a class declares.  Its `let`, `const`, class and function declarations
count for the whole class: they shadow an import in the block and in the other members.  Its `var`
declarations count for the function around the class, in the block and outside; at the top of a
module they shadow nothing, not even in the block. -/
theorem staticBlock_replaced_iff
    {text : String}
    {program : Program}
    (view : ModuleView)
    (hparse : Program.parse text = .ok program)
    (hcatalog : Catalog.build text program = .ok view.catalog)
    (spot : Spot)
    (declared : Bool)
    (span : Span)
    (name : Option String)
    (before code after : List Node)
    (hitems : program.items =
      spot.items [.classDef declared span name (before ++ .staticBlock code :: after)]) :
    let block := spot.site.comp (.staticBlock declared span name before after)
    let emptied :=
      spot.put program [.classDef declared span name (before ++ .staticBlock [] :: after)]
    Catalog.build text emptied = .ok view.catalog ∧
      ∃ spans spans₀,
        replacedSpans program view = .ok spans ∧
        replacedSpans emptied view = .ok spans₀ ∧
        (∀ o ∈ occurrencesOf code,
          o.span ∈ spans ↔
            (∃ i ∈ view.catalog.imports, i.name = o.name) ∧
              (∀ scope ∈ o.around ++ block.scopes, o.name ∉ scope) ∧
              o.name ∉ blockNamesOf code ∧
              ¬(o.name ∈ varNamesOf code ∧ spot.site.nearest Layer.isFunction ≠ none)) ∧
        ∀ o ∈ program.occurrences, o.span ∉ spansOf code →
          (o.span ∈ spans ↔
            o.span ∈ spans₀ ∧
              ¬(o.name ∈ blockNamesOf code ∧ o.span ∈ spansOf (before ++ after)) ∧
              ¬(o.name ∈ varNamesOf code ∧ block.Reaches Layer.isFunction o.span)) := by
  intro block emptied
  have hfill : ∀ code, (spot.inside (.staticBlock declared span name before after)).items code =
      spot.items [.classDef declared span name (before ++ .staticBlock code :: after)] := by
    intro code
    rw [Spot.items_inside, Site.fill_staticBlock]
  have hspot := replacedSpans_spot hparse hcatalog
    (spot.inside (.staticBlock declared span name before after)) code
    (hitems.trans (hfill code).symm)
  rw [Spot.put, hfill] at hspot
  have hscope : block.nearest Layer.isScope = some (before ++ .staticBlock [] :: after) :=
    Site.nearest_comp_of_some Site.nearest_staticBlock
  have hfunction : block.nearest Layer.isFunction = none ↔
      spot.site.nearest Layer.isFunction = none := by
    rw [Site.nearest_comp_eq_none, Site.nearest_isFunction_staticBlock]
    exact and_iff_left rfl
  have hreaches : ∀ span, block.Reaches Layer.isScope span ↔ span ∈ spansOf (before ++ after) := by
    intro span
    simp [Site.Reaches, hscope]
  obtain ⟨hcatalog₀, spans, spans₀, hspans, hspans₀, hinside, houtside⟩ := hspot
  refine ⟨hcatalog₀, spans, spans₀, hspans, hspans₀, fun o ho => ?_, fun o ho hout => ?_⟩
  · rw [hinside o ho]
    change _ ∧ _ ∧ ¬(_ ∧ block.nearest Layer.isScope ≠ none) ∧
      ¬(_ ∧ block.nearest Layer.isFunction ≠ none) ↔ _
    simp only [hscope, ne_eq, hfunction, reduceCtorEq, not_false_eq_true, and_true]
    rfl
  · rw [houtside o ho hout, ← hreaches]
    rfl

/-- A class whose static block declares the names of two imports. -/
def staticDeclarations : String :=
  "import x, \x7b y \x7d from 'm';\nclass C \x7b static \x7b let x; var y; y; \x7d [x]; \x7d\n"

/-- The statement behind an import of `x` and `y`. -/
def behindImport (span : Span) : Spot where
  before := [.imports ⟨0, 25⟩ "m" [⟨.default, "x"⟩, ⟨.named "y", "y"⟩]]
  item := .statement span false []
  site := .here [] []
  after := []
  code_withCode := fun _ => rfl

/-- The catalog of a module that imports `x` and `y` and exports nothing. -/
def importsOnly : Catalog :=
  ⟨[⟨"m", .default, "x"⟩, ⟨"m", .named "y", "y"⟩], [], [], ["m"], none⟩

theorem build_behindImport (text : String) (span : Span) (code : List Node) :
    Catalog.build text ((behindImport span).put ⟨none, [], []⟩ code) = .ok importsOnly :=
  rfl

/-- Whether a reading gives the tree of `staticDeclarations`; equality of trees is not decided. -/
def readsStatic : Except Fault Program → Bool
  | .ok ⟨none, [], [.imports ⟨0, 25⟩ "m" [⟨.default, "x"⟩, ⟨.named "y", "y"⟩],
      .statement ⟨26, 70⟩ false [.classDef true ⟨26, 70⟩ (some "C")
        [.staticBlock [.bindings .let [.name "x"] [], .bindings .var [.name "y"] [],
          .reference ⟨59, 60⟩ "y"], .reference ⟨65, 66⟩ "x"]]]⟩ => true
  | _ => false

theorem parse_staticDeclarations :
    Program.parse staticDeclarations =
      .ok ((behindImport ⟨26, 70⟩).put ⟨none, [], []⟩
        [.classDef true ⟨26, 70⟩ (some "C")
          [.staticBlock [.bindings .let [.name "x"] [], .bindings .var [.name "y"] [],
            .reference ⟨59, 60⟩ "y"], .reference ⟨65, 66⟩ "x"]]) := by
  have hread : readsStatic (Program.parse staticDeclarations) = true := by decide +kernel
  generalize Program.parse staticDeclarations = outcome at hread ⊢
  unfold readsStatic at hread
  split at hread
  · rfl
  · cases hread

/-- Only `x` is shadowed by the static block, and it is shadowed behind the block too. -/
theorem staticBlock_staticDeclarations :
    ∃ program code after spans spans₀,
      Program.parse staticDeclarations = .ok program ∧
      Catalog.build staticDeclarations program = .ok importsOnly ∧
      program.items = (behindImport ⟨26, 70⟩).items
        [.classDef true ⟨26, 70⟩ (some "C") ([] ++ .staticBlock code :: after)] ∧
      replacedSpans program ⟨"n", {}, importsOnly, []⟩ = .ok spans ∧
      replacedSpans
        ((behindImport ⟨26, 70⟩).put program
          [.classDef true ⟨26, 70⟩ (some "C") ([] ++ .staticBlock [] :: after)])
        ⟨"n", {}, importsOnly, []⟩ = .ok spans₀ ∧
      ⟨59, 60⟩ ∈ spans ∧ ⟨65, 66⟩ ∉ spans ∧ ⟨65, 66⟩ ∈ spans₀ := by
  obtain ⟨-, spans, spans₀, hspans, hspans₀, hinside, houtside⟩ :=
    staticBlock_replaced_iff ⟨"n", {}, importsOnly, []⟩ parse_staticDeclarations
      (build_behindImport ..) (behindImport ⟨26, 70⟩) true ⟨26, 70⟩ (some "C") []
      _ [.reference ⟨65, 66⟩ "x"] rfl
  refine ⟨_, _, _, spans, spans₀, parse_staticDeclarations, build_behindImport .., rfl, hspans,
    hspans₀, ?_, ?_, ?_⟩
  · have hy := hinside ⟨"y", ⟨59, 60⟩, false, []⟩ (by decide)
    exact hy.mpr (by decide)
  · have hx := houtside ⟨"x", ⟨65, 66⟩, false, [["x"]]⟩ (by decide) (by decide)
    exact fun h => (hx.mp h).2.1 (by decide)
  · have hemptied : spans₀ = [⟨65, 66⟩] :=
      Except.ok.inj (hspans₀.symm.trans (by decide +kernel))
    simp [hemptied]

/-- The identifiers of a text that are made to read imports. -/
def importReads? (text : String) : Option (List Span) := do
  let program ← (Program.parse text).toOption
  let catalog ← (Catalog.build text program).toOption
  (replacedSpans program ⟨"n", {}, catalog, []⟩).toOption

/-- A `let` in a static block changes how another member of the class is read, and a `var` there
does not change how the block itself is read. -/
theorem staticBlock_no_scope :
    importReads? "import x from 'm';\nclass C \x7b static \x7b let x; \x7d [x]; \x7d\n" = some [] ∧
    importReads? "import x from 'm';\nclass C \x7b static \x7b let z; \x7d [x]; \x7d\n" =
      some [⟨48, 49⟩] ∧
    importReads? "import x from 'm';\nclass C \x7b static \x7b var x; x; \x7d \x7d\n" =
      some [⟨45, 46⟩] := by
  decide +kernel

/-! ### Parameters -/

/-- What the body of a function declares reaches into the default values of its parameters.  There
an import is read if and only if it would be read with an empty body, and the body declares no such
name, neither at its top nor with `var` anywhere outside inner functions. -/
theorem initialiser_replaced_iff
    {text : String}
    {program : Program}
    (view : ModuleView)
    (hparse : Program.parse text = .ok program)
    (hcatalog : Catalog.build text program = .ok view.catalog)
    (spot : Spot)
    (declared : Bool)
    (span : Span)
    (name : Option String)
    (parameters : List Pattern)
    (head body : List Node)
    (hitems : program.items = spot.items [.function declared span name parameters head body]) :
    let emptied := spot.put program [.function declared span name parameters head []]
    Catalog.build text emptied = .ok view.catalog ∧
      ∃ spans spans₀,
        replacedSpans program view = .ok spans ∧
        replacedSpans emptied view = .ok spans₀ ∧
        ∀ o ∈ occurrencesOf head,
          o.span ∈ spans ↔
            o.span ∈ spans₀ ∧ o.name ∉ blockNamesOf body ∧ o.name ∉ varNamesOf body := by
  intro emptied
  have hfill : ∀ body, (spot.inside (.functionBody declared span name parameters head)).items body =
      spot.items [.function declared span name parameters head body] := by
    intro body
    rw [Spot.items_inside, Site.fill_functionBody]
  have hspot := replacedSpans_spot hparse hcatalog
    (spot.inside (.functionBody declared span name parameters head)) body
    (hitems.trans (hfill body).symm)
  rw [Spot.put, hfill] at hspot
  obtain ⟨hcatalog₀, spans, spans₀, hspans, hspans₀, -, houtside⟩ := hspot
  refine ⟨hcatalog₀, spans, spans₀, hspans, hspans₀, fun o ho => ?_⟩
  have hreaches : ∀ p, p (.functionBody declared span name parameters head) = true →
      (spot.inside (.functionBody declared span name parameters head)).site.Reaches p o.span := by
    intro p hp
    exact ⟨head, Site.nearest_comp_of_some (Site.nearest_functionBody hp), mem_spansOf ho⟩
  have hcode : program.code =
      spot.whole.fill [.function declared span name parameters head body] := by
    rw [Program.code, hitems, spot.flatMap_code]
  obtain ⟨o', ho', hname, hspan⟩ : ∃ o' ∈ program.occurrences,
      o'.name = o.name ∧ o'.span = o.span := by
    have hwithin : o.within (functionScope declared name parameters head body) ∈
        occurrencesOf [.function declared span name parameters head body] := by
      simp only [occurrencesOf, Node.occurrences, List.append_nil]
      exact List.mem_map_of_mem (List.mem_append_left _ ho)
    obtain ⟨o', ho', hname, hspan, -⟩ := spot.whole.exists_inside _ hwithin
    exact ⟨o', by rwa [Program.occurrences, hcode], hname, hspan⟩
  have hout : o'.span ∉ spansOf body := by
    have hnodup : (spansOf program.code).Nodup := nodup_spans_occurrences hparse
    rw [hcode] at hnodup
    have hown := spot.whole.nodup_of_fill hnodup
    simp only [spansOf_cons, spansOf_nil, List.append_nil, Node.spans_function] at hown
    rw [hspan]
    exact List.disjoint_of_nodup_append hown (mem_spansOf ho)
  rw [← hspan, ← hname, houtside o' ho' hout, hspan]
  simp only [hreaches Layer.isScope rfl, hreaches Layer.isFunction rfl, and_true]

/-- A function whose body declares the name of an import. -/
def bodyDeclaration : String :=
  "import x, \x7b y \x7d from 'm';\nfunction f(a = x, b = y) \x7b var x; \x7d\n"

/-- The same for the tree of `bodyDeclaration`. -/
def readsBody : Except Fault Program → Bool
  | .ok ⟨none, [], [.imports ⟨0, 25⟩ "m" [⟨.default, "x"⟩, ⟨.named "y", "y"⟩],
      .statement ⟨26, 61⟩ false [.function true ⟨26, 61⟩ (some "f")
        [.withDefault (.name "a"), .withDefault (.name "b")]
        [.reference ⟨41, 42⟩ "x", .reference ⟨48, 49⟩ "y"]
        [.bindings .var [.name "x"] []]]]⟩ => true
  | _ => false

theorem parse_bodyDeclaration :
    Program.parse bodyDeclaration =
      .ok ((behindImport ⟨26, 61⟩).put ⟨none, [], []⟩
        [.function true ⟨26, 61⟩ (some "f") [.withDefault (.name "a"), .withDefault (.name "b")]
          [.reference ⟨41, 42⟩ "x", .reference ⟨48, 49⟩ "y"]
          [.bindings .var [.name "x"] []]]) := by
  have hread : readsBody (Program.parse bodyDeclaration) = true := by decide +kernel
  generalize Program.parse bodyDeclaration = outcome at hread ⊢
  unfold readsBody at hread
  split at hread
  · rfl
  · cases hread

/-- Of the two default values, the one with the name that the body declares is left alone. -/
theorem initialiser_bodyDeclaration :
    ∃ program parameters head body spans spans₀,
      Program.parse bodyDeclaration = .ok program ∧
      Catalog.build bodyDeclaration program = .ok importsOnly ∧
      program.items = (behindImport ⟨26, 61⟩).items
        [.function true ⟨26, 61⟩ (some "f") parameters head body] ∧
      replacedSpans program ⟨"n", {}, importsOnly, []⟩ = .ok spans ∧
      replacedSpans
        ((behindImport ⟨26, 61⟩).put program
          [.function true ⟨26, 61⟩ (some "f") parameters head []])
        ⟨"n", {}, importsOnly, []⟩ = .ok spans₀ ∧
      ⟨41, 42⟩ ∉ spans ∧ ⟨41, 42⟩ ∈ spans₀ ∧ ⟨48, 49⟩ ∈ spans := by
  obtain ⟨-, spans, spans₀, hspans, hspans₀, hhead⟩ :=
    initialiser_replaced_iff ⟨"n", {}, importsOnly, []⟩ parse_bodyDeclaration
      (build_behindImport ..) (behindImport ⟨26, 61⟩) true ⟨26, 61⟩ (some "f")
      [.withDefault (.name "a"), .withDefault (.name "b")] _ _ rfl
  have hemptied : spans₀ = [⟨41, 42⟩, ⟨48, 49⟩] :=
    Except.ok.inj (hspans₀.symm.trans (by decide +kernel))
  refine ⟨_, _, _, _, spans, spans₀, parse_bodyDeclaration, build_behindImport .., rfl, hspans,
    hspans₀, ?_, ?_, ?_⟩
  · have hx := hhead ⟨"x", ⟨41, 42⟩, false, []⟩ (by decide)
    exact fun h => (hx.mp h).2.2 (by decide)
  · simp [hemptied]
  · have hy := hhead ⟨"y", ⟨48, 49⟩, false, []⟩ (by decide)
    exact hy.mpr ⟨by simp [hemptied], by decide, by decide⟩

/-- A `var` in the body of a function changes how a default value is read. -/
theorem initialiser_sees_body :
    importReads? "import x from 'm';\nfunction f(a = x) \x7b var x; \x7d\n" = some [] ∧
    importReads? "import x from 'm';\nfunction f(a = x) \x7b \x7d\n" = some [⟨34, 35⟩] := by
  decide +kernel

end Transpile
end EsModules
