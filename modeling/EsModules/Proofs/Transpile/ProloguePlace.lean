import EsModules.Proofs.Transpile.LoadOrder

/-!
# The place of the prologue

The prologue goes behind the directives, or before the first statement, so that a hashbang and
leading comments stay on top.  The place of a statement is its span, and the decorators of an
exported class lie outside of it.  So the prologue comes before all code of the module, unless
there are no directives and the first statement is an export behind decorators: then it ends up
between the decorators and their class (`prologueFirst_iff`).
-/

namespace EsModules

open Syntax Text

/-- Where the hashbang ends. -/
def Syntax.Program.hashbangStop (program : Program) : Nat :=
  match program.hashbang with
  | none => 0
  | some span => span.stop

theorem hashbangStop_of_parse
    {text : String}
    {program : Program}
    (h : Program.parse text = .ok program) :
    program.hashbangStop = (Program.hashbang? text.toList).2.offset := by
  obtain ⟨-, -, -, -, -, -, hbang⟩ := Program.spaced_of_parse h
  rw [Program.hashbangStop, hbang]
  split
  · rename_i hnone
    exact ((Program.offset_hashbang? _).mpr hnone).symm
  · rename_i span hsome
    rw [(Program.hashbang?_at text.toList).2 span hsome]

/-! ### Text before all code -/

/-- The directives follow one another from `lo` to `hi`, each of them behind a gap. -/
def DirectivesTo (text : List Char) : Nat → List Span → Nat → Prop
  | lo, [], hi => lo = hi
  | lo, d :: rest, hi =>
      GapTo text lo d.start ∧ d.start < d.stop ∧ DirectivesTo text d.stop rest hi

/-- Before the byte `p` there is nothing but the hashbang, all directives, white space and comments.
-/
def Opens (text : String) (program : Program) (p : Nat) : Prop :=
  ∃ middle, DirectivesTo text.toList program.hashbangStop program.directives middle ∧
    (p = middle ∨ GapTo text.toList middle p)

/-- The first thing in the module is a decorator, and the statement behind it is an export. -/
def Decorated (text : String) (program : Program) : Prop :=
  program.directives = [] ∧
    ∃ item begin, program.items.head? = some item ∧ item.IsExport ∧
      GapTo text.toList program.hashbangStop begin ∧ begin < item.span.start ∧
      ∃ front back, text.toList = front ++ '@' :: back ∧ byteLength front = begin

theorem Syntax.Spaced.directivesTo
    {text : List Char}
    {lo hi : Nat}
    {directives : List Item}
    (h : Spaced text lo directives hi)
    (hall : ∀ d ∈ directives, Program.isDirective d = true) :
    DirectivesTo text lo (directives.map Item.span) hi := by
  induction directives generalizing lo with
  | nil => exact h
  | cons d directives ih =>
      obtain ⟨⟨begin, hfollows⟩, hrest⟩ := h
      have hplain : ¬d.IsExport := by
        intro hexport
        have hd := hall d (by simp)
        cases d with
        | statement => exact hexport
        | _ => cases hd
      have hstart := hfollows.start_eq hplain
      refine ⟨?_, ?_, ih hrest fun x hx => hall x (List.mem_cons_of_mem _ hx)⟩
      · rw [hstart]
        exact hfollows.gap
      · rw [hstart]
        exact hfollows.begin_lt

namespace Transpile

open Edit

/-! ### The place -/

section

variable {text prologue : String} {program : Program}

/-- Unless decorators come first, the prologue goes before all statements and behind nothing else
but the directives. -/
theorem spaced_prologueEdit
    (hparse : Program.parse text = .ok program)
    (hprologue : prologue ≠ "")
    (hbare : ¬Decorated text program) :
    ∃ p hi, (prologueEdit program text prologue).span = ⟨p, p⟩ ∧ Opens text program p ∧
      Spaced text.toList p program.items hi := by
  obtain ⟨directives, last, hdirectives, hall, hspaced, hend, -⟩ := Program.spaced_of_parse hparse
  rw [← hashbangStop_of_parse hparse] at hspaced
  obtain ⟨middle, hfront, hitems⟩ := hspaced.of_append
  have hopens : DirectivesTo text.toList program.hashbangStop program.directives middle := by
    rw [hdirectives]
    exact hfront.directivesTo hall
  cases hlast : directives.getLast? with
  | some directive =>
      have hdirective : program.directives.getLast? = some directive.span := by
        rw [hdirectives, List.getLast?_map, hlast]
        rfl
      have hstop := hfront.stop_of_getLast? hlast
      refine ⟨middle, last, ?_, ⟨middle, hopens, .inl rfl⟩, hitems⟩
      simp [prologueEdit, hprologue, hdirective, Edit.insert, hstop]
  | none =>
      obtain rfl := List.getLast?_eq_none_iff.mp hlast
      obtain rfl : program.hashbangStop = middle := hfront
      cases hlist : program.items with
      | nil =>
          rw [hlist] at hitems
          obtain rfl : program.hashbangStop = last := hitems
          refine ⟨byteLength text.toList, byteLength text.toList, ?_, ⟨_, hopens, .inr hend⟩, rfl⟩
          simp [prologueEdit, hprologue, hdirectives, hlist, Edit.insert]
      | cons item items =>
          rw [hlist] at hitems
          obtain ⟨⟨begin, hfollows⟩, hrest⟩ := hitems
          have hbegin : item.span.start = begin := by
            rcases hfollows.start with hstart | ⟨hmark, -⟩
            · exact hstart
            · refine Nat.le_antisymm (Nat.not_lt.mp fun hlt => hbare ?_) hfollows.placed.lo_le
              exact ⟨hdirectives, item, begin, by simp [hlist], hfollows.isExport hlt, hfollows.gap,
                hlt, hmark⟩
          refine ⟨begin, last, ?_, ⟨_, hopens, .inr hfollows.gap⟩,
            ⟨begin, { hfollows with gap := hfollows.gap.self }⟩, hrest⟩
          simp [prologueEdit, hprologue, hdirectives, hlist, Edit.insert, hbegin]

/-- Decorators at the front stay before the prologue. -/
theorem not_opens_of_decorated
    (h : Decorated text program)
    (hprologue : prologue ≠ "") :
    ¬Opens text program (prologueEdit program text prologue).span.start := by
  obtain ⟨hdirectives, item, begin, hitem, -, hgap, hlt, -⟩ := h
  have hplace : (prologueEdit program text prologue).span.start = item.span.start := by
    simp [prologueEdit, hprologue, hdirectives, hitem, Edit.insert]
  rw [hplace]
  rintro ⟨middle, hfront, hp⟩
  rw [hdirectives] at hfront
  obtain rfl : program.hashbangStop = middle := hfront
  rcases hp with hp | hp
  · have := hgap.le
    omega
  · have := hgap.unique hp
    omega

end

/-! ### The output -/

theorem spliced_isPrefix (edits : List Edit) (p : Nat) (front more : List Char) :
    spliced edits p front <+: spliced edits p (front ++ more) := by
  cases more with
  | nil => simp
  | cons c more =>
      rw [spliced_append_cons, List.append_assoc]
      exact List.prefix_append _ _

theorem insertion_isSuffix (edits : List Edit) (p : Nat) (front : List Char) :
    insertion edits (p + byteLength front) <:+ spliced edits p front := by
  induction front generalizing p with
  | nil => exact List.suffix_refl _
  | cons c front ih =>
      rw [spliced, byteLength_cons, ← Nat.add_assoc]
      exact (ih _).trans (List.suffix_append _ _)

namespace Assembly

variable {target : Target} {text : String} {options : TranspileOptions}

/-- The edit that inserts the prologue. -/
def prologueInsert (a : Assembly target text options) : Edit :=
  prologueEdit a.program text a.prologue

theorem upTo_isPrefix
    {p q : Nat}
    (a : Assembly target text options)
    (hp : Boundary text.toList p)
    (hq : Boundary text.toList q)
    (hle : p ≤ q) :
    a.upTo p <+: a.upTo q := by
  obtain ⟨front, middle, back, htext, rfl, rfl⟩ := Boundary.parts hp hq hle
  rw [a.upTo_eq htext, a.upTo_eq ((List.append_assoc _ _ _).symm ▸ htext)]
  exact (List.prefix_append_right_inj _).mpr (spliced_isPrefix _ _ _ _)

/-- The prologue is what is inserted last at its place. -/
theorem insertion_edits
    {p : Nat}
    (a : Assembly target text options)
    (hspan : a.prologueInsert.span = ⟨p, p⟩) :
    insertion a.edits p =
      insertion (a.declarations ++ a.references) p ++ a.prologueInsert.text.toList := by
  have hhoisted : ∀ e ∈ (hoistHashbang a.program text a.wrapper.header).2, e.text = "" := by
    unfold hoistHashbang
    split
    · simp
    · split <;> simp [Edit.remove]
  have hinserts : insertsAt p a.prologueInsert = true := by
    simp [insertsAt, hspan]
  have hnothing : ((hoistHashbang a.program text a.wrapper.header).2.filter
      (insertsAt p)).flatMap (·.text.toList) = [] := by
    rw [List.flatMap_eq_nil_iff]
    intro e he
    rw [hhoisted e (List.mem_of_mem_filter he)]
    rfl
  rw [insertion, edits, moduleEdits, List.filter_append, List.flatMap_append, hnothing,
    List.append_nil, List.filter_append, List.flatMap_append, ← prologueInsert,
    List.filter_cons_of_pos hinserts, List.filter_nil, List.flatMap_singleton, insertion]

/-- The output up to the place of the prologue ends with the prologue. -/
theorem prologue_isSuffix
    {p : Nat}
    (a : Assembly target text options)
    (hspan : a.prologueInsert.span = ⟨p, p⟩)
    (hp : Boundary text.toList p) :
    a.prologueInsert.text.toList <:+ a.upTo p := by
  obtain ⟨front, back, htext, rfl⟩ := hp
  have hlast : a.prologueInsert.text.toList <:+ insertion a.edits (byteLength front) := by
    rw [a.insertion_edits hspan]
    exact List.suffix_append _ _
  rw [a.upTo_eq htext]
  have hspliced := insertion_isSuffix a.edits 0 front
  rw [Nat.zero_add] at hspliced
  exact hlast.trans (hspliced.trans (List.suffix_append _ _))

/-- The prologue, which goes to the byte `p`, comes before all code: only the hashbang, the
directives, white space and comments stand before `p`, and all statements, as they are kept or
replaced, come behind the prologue in the output. -/
structure PrologueFirst (a : Assembly target text options) (r : Rendered) (p : Nat) : Prop where
  opens : Opens text a.program p
  statements :
    ∀ item ∈ a.program.items, ∃ before begin, item.Follows text.toList before begin ∧ p ≤ begin ∧
      a.upTo p <+: a.upTo begin ∧ a.upTo begin <+: r.code.toList
  replaced :
    ∀ e ∈ a.declarations, e.span.start < e.span.stop →
      a.upTo p <+: a.upTo e.span.start ∧
        a.upTo e.span.start ++ e.text.toList <+: r.code.toList

theorem Gives.upTo_isPrefix
    {a : Assembly target text options}
    {r : Rendered}
    {p : Nat}
    (h : a.Gives r)
    (hp : Boundary text.toList p) :
    a.upTo p <+: r.code.toList :=
  (a.upTo_isPrefix hp (boundary_byteLength _) hp.le_byteLength).trans h.upTo_text

theorem Gives.prologueFirst
    {a : Assembly target text options}
    {r : Rendered}
    {p hi : Nat}
    (h : a.Gives r)
    (hp : Boundary text.toList p)
    (hopens : Opens text a.program p)
    (hspaced : Spaced text.toList p a.program.items hi) :
    a.PrologueFirst r p where
  opens := hopens
  statements := by
    intro item hitem
    obtain ⟨before, begin, hfollows, hle⟩ := hspaced.follows_of_mem hitem
    have hbegin := hfollows.gap.boundary.2
    exact ⟨before, begin, hfollows, hle, a.upTo_isPrefix hp hbegin hle, h.upTo_isPrefix hbegin⟩
  replaced := by
    intro e he hlt
    have hmem := a.mem_edits_of_declaration he
    obtain ⟨-, item, hitem, hstart, -⟩ := a.fits.inside e he
    have hle := (hspaced.laid.placed hitem).1.lo_le
    exact ⟨a.upTo_isPrefix hp (a.applicable.whole e hmem).1 (Nat.le_trans hle hstart),
      h.replaced_prefix hmem hlt⟩

end Assembly

/-- The prologue comes before all code of the module if and only if no decorators come first, and a
prologue without text goes to the front. -/
theorem prologueFirst_iff
    {target : Target}
    {text : String}
    {options : TranspileOptions}
    {r : Rendered}
    (h : transpileFor target text options = .ok r) :
    ∃ a : Assembly target text options, a.Gives r ∧
      (a.prologue = "" → a.prologueInsert = .insert 0 "") ∧
      (a.prologue ≠ "" → ∃ p, a.prologueInsert.span = ⟨p, p⟩ ∧
        a.prologueInsert.text.toList <:+ a.upTo p ∧
        (a.PrologueFirst r p ↔ ¬Decorated text a.program)) := by
  obtain ⟨a, hr⟩ := exists_assembly h
  refine ⟨a, hr, ?_, ?_⟩
  · intro hnone
    simp [Assembly.prologueInsert, prologueEdit, hnone]
  · intro hprologue
    obtain ⟨first, middle, last, hlaid⟩ := Program.laidOut_of_parse a.hparse
    obtain ⟨p, hspan, hp, -⟩ := prologueEdit_apart hlaid a.prologue a.fits
    refine ⟨p, hspan, a.prologue_isSuffix hspan hp, ?_, ?_⟩
    · intro hfirst hdecorated
      refine not_opens_of_decorated hdecorated hprologue ?_
      rw [hspan]
      exact hfirst.opens
    · intro hbare
      obtain ⟨p', hi, hspan', hopens, hspaced⟩ := spaced_prologueEdit a.hparse hprologue hbare
      obtain rfl : p' = p := congrArg Span.start (hspan'.symm.trans hspan)
      exact hr.prologueFirst hp hopens hspaced

/-- An exported class with a decorator. -/
def decoratedExport : String :=
  "@d export class C \x7b\x7d\n"

/-- The same behind a hashbang, a comment and a directive. -/
def decoratedLater : String :=
  "#!/bin/x\n// c\n'use strict'\n" ++ decoratedExport

theorem decorated_decoratedExport
    {program : Program}
    (h : Program.parse decoratedExport = .ok program) :
    Decorated decoratedExport program := by
  have hread : ((Program.parse decoratedExport).toOption.map fun p =>
      (p.hashbang, p.directives, p.items.map fun item => (item.span, item.publicNames))) =
      some (none, [], [(⟨3, 20⟩, ["C"])]) := by
    decide +kernel
  rw [h] at hread
  simp only [Except.toOption, Option.map_some, Option.some.injEq, Prod.mk.injEq] at hread
  obtain ⟨hbang, hdirectives, hitems⟩ := hread
  obtain ⟨item, items, hlist, hitem, -⟩ := List.map_eq_cons_iff.mp hitems
  obtain ⟨hspan, hnames⟩ := Prod.mk.inj hitem
  refine ⟨hdirectives, item, 0, by simp [hlist], ?_, ?_, by simp [hspan], [], _, rfl, rfl⟩
  · cases item with
    | imports => cases hnames
    | statement => cases hnames
    | _ => trivial
  · rw [Program.hashbangStop, hbang]
    exact ⟨[], [], decoratedExport.toList, false, rfl, rfl, rfl, rfl⟩

theorem prologue_commonJs_ne_empty
    {text : String}
    {options : TranspileOptions}
    (a : Assembly (Target.commonJs []) text options) :
    a.prologue ≠ "" := by
  obtain ⟨getters, -, hprologue⟩ := bind_eq_ok.mp a.hprologue
  rw [← Except.ok.inj hprologue]
  intro hnone
  simp only [String.append_eq_empty_iff, and_assoc] at hnone
  exact absurd hnone.1 (by decide)

/-- The decorator of the first statement stands before the prologue, but not if a directive comes
first. -/
theorem prologueFirst_iff_decoratedExport :
    (∃ r, transpileFor (Target.commonJs []) decoratedExport ⟨some "n", none, none, {}⟩ = .ok r ∧
      ∃ a : Assembly (Target.commonJs []) decoratedExport ⟨some "n", none, none, {}⟩, a.Gives r ∧
        ∃ p, a.prologueInsert.span = ⟨p, p⟩ ∧ ¬a.PrologueFirst r p) ∧
    (∃ r, transpileFor (Target.commonJs []) decoratedLater ⟨some "n", none, none, {}⟩ = .ok r ∧
      ∃ a : Assembly (Target.commonJs []) decoratedLater ⟨some "n", none, none, {}⟩, a.Gives r ∧
        ∃ p, a.prologueInsert.span = ⟨p, p⟩ ∧ a.PrologueFirst r p) := by
  constructor
  · have hok : ((transpileFor (Target.commonJs []) decoratedExport
        ⟨some "n", none, none, {}⟩).toOption.map fun _ => ()) = some () := by
      simp only [transpileFor_eq]
      decide +kernel
    obtain ⟨r, hr, -⟩ := ok_of_toOption_map hok
    obtain ⟨a, hgives, -, hplace⟩ := prologueFirst_iff hr
    obtain ⟨p, hspan, -, hiff⟩ := hplace (prologue_commonJs_ne_empty a)
    exact ⟨r, hr, a, hgives, p, hspan, fun hfirst =>
      hiff.mp hfirst (decorated_decoratedExport a.hparse)⟩
  · have hok : ((transpileFor (Target.commonJs []) decoratedLater
        ⟨some "n", none, none, {}⟩).toOption.map fun _ => ()) = some () := by
      simp only [transpileFor_eq]
      decide +kernel
    have hread : ((Program.parse decoratedLater).toOption.map fun p => p.directives) =
        some [⟨14, 26⟩] := by
      decide +kernel
    obtain ⟨r, hr, -⟩ := ok_of_toOption_map hok
    obtain ⟨a, hgives, -, hplace⟩ := prologueFirst_iff hr
    obtain ⟨p, hspan, -, hiff⟩ := hplace (prologue_commonJs_ne_empty a)
    refine ⟨r, hr, a, hgives, p, hspan, hiff.mpr fun hdecorated => ?_⟩
    rw [a.hparse] at hread
    cases hdecorated.1.symm.trans (Option.some.inj hread)

/-- The prologue ends up between the decorator and its class. -/
theorem decoratedExport_split :
    (transpileFor (Target.commonJs []) decoratedExport
        ⟨some "n", none, none, {}⟩).toOption.map (·.code) =
      some ("\"use strict\";\n@d var __es6_module__ = exports;\n" ++
        "Object.defineProperties(__es6_module__, \x7b\n" ++
        "  \"C\": \x7b enumerable: true, get: function () \x7b return C; \x7d \x7d\n\x7d);\n" ++
        "class C \x7b\x7d\n") := by
  simp only [transpileFor_eq]
  decide +kernel

end Transpile
end EsModules
