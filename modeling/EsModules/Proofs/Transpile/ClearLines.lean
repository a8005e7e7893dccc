import EsModules.Proofs.Transpile.ProloguePlace
import EsModules.Proofs.Transpile.Wrapping

/-!
# Lines of generated code

A line comment and the hashbang run to the end of their line, so generated code on such a line would
be lost.  The places where code is put are chosen by looking at the text only, and the edits change
what stands before them: a hashbang that is hoisted takes its line feed with it, and the prologue
may come behind the last line feed of the text.  All of this fits together
(`clearLines_of_shipped`): a line terminator stands between every line comment and the prologue, the
hashbang has the first line of the output for itself, and the epilogue and the footer begin lines.

Lines end at the characters that end a comment (`isLineTerminator`), and not only at line feeds.
-/

namespace EsModules

open Syntax Text

/-! ### Output without what is inserted at its end -/

namespace Edit

/-- The text behind the edits, without what is inserted at its end. -/
def passed (edits : List Edit) : Nat → List Char → List Char
  | _, [] => []
  | p, c :: cs => insertion edits p ++ inPlace edits p c ++ passed edits (p + c.utf8Size) cs

theorem spliced_eq_passed (edits : List Edit) (p : Nat) (cs : List Char) :
    spliced edits p cs = passed edits p cs ++ insertion edits (p + byteLength cs) := by
  induction cs generalizing p with
  | nil => rfl
  | cons c cs ih => simp [spliced, passed, ih, Nat.add_assoc]

theorem passed_append_cons
    (edits : List Edit)
    (p : Nat)
    (front : List Char)
    (c : Char)
    (back : List Char) :
    passed edits p (front ++ c :: back) =
      spliced edits p front ++ inPlace edits (p + byteLength front) c ++
        passed edits (p + byteLength front + c.utf8Size) back := by
  have h := spliced_append_cons edits p front c back
  rw [spliced_eq_passed, spliced_eq_passed _ _ back, byteLength_append, byteLength_cons,
    ← Nat.add_assoc, ← Nat.add_assoc, ← List.append_assoc] at h
  exact List.append_cancel_right h

/-- The text before all edits is kept. -/
theorem passed_kept
    {edits : List Edit}
    {p : Nat}
    (before more : List Char)
    (h : Behind (p + byteLength before) edits) :
    passed edits p (before ++ more) = before ++ passed edits (p + byteLength before) more := by
  have hkept := spliced_kept before more h
  rw [spliced_eq_passed, spliced_eq_passed _ _ more, byteLength_append, ← Nat.add_assoc,
    ← List.append_assoc] at hkept
  exact List.append_cancel_right hkept

end Edit

/-! ### Ends of lines -/

/-- The text `before` begins with `done` and goes on in another line. -/
def LineBetween (done before : List Char) : Prop :=
  ∃ between, before = done ++ between ∧ ∃ c ∈ between, isLineTerminator c = true

theorem LineBetween.append
    {done before : List Char}
    (h : LineBetween done before)
    (more : List Char) :
    LineBetween done (before ++ more) := by
  obtain ⟨between, rfl, c, hc, hline⟩ := h
  exact ⟨between ++ more, List.append_assoc _ _ _, c, List.mem_append_left _ hc, hline⟩

namespace Syntax

/-- A boundary behind a character cuts the text behind that character. -/
theorem Boundary.exists_between
    {text front back : List Char}
    {c : Char}
    {p : Nat}
    (hp : Boundary text p)
    (htext : text = front ++ c :: back)
    (hle : byteLength front + c.utf8Size ≤ p) :
    ∃ between rest, text = front ++ c :: between ++ rest ∧
      byteLength (front ++ c :: between) = p := by
  obtain ⟨front', rest, htext', rfl⟩ := hp
  have hcut : (front ++ [c]) ++ back = front' ++ rest := by
    rw [← htext', htext, List.append_assoc]
    rfl
  obtain ⟨between, rfl, -⟩ := append_eq_append_of_le hcut (by simpa using hle)
  exact ⟨between, rest, by simpa using htext', by simp⟩

/-- A line comment takes its two slashes. -/
theorem LineComment.start_lt
    {text : List Char}
    {lo hi : Nat}
    {comment : Span}
    (h : LineComment text lo hi comment) :
    comment.start < comment.stop := by
  obtain ⟨front, body, -, -, hstart, hstop, -⟩ := h.line
  have hpos := '/'.utf8Size_pos
  rw [byteLength_append, byteLength_cons] at hstop
  omega

/-- No line terminator lies in a stretch of one line. -/
theorem OneLine.isLineTerminator_eq
    {text front back : List Char}
    {a b : Nat}
    {c : Char}
    (h : OneLine text a b)
    (htext : text = front ++ c :: back)
    (ha : a ≤ byteLength front)
    (hb : byteLength front < b) :
    isLineTerminator c = false := by
  obtain ⟨before, middle, behind, htext', rfl, rfl, hline⟩ := h
  obtain ⟨first, rfl, hrest⟩ := append_eq_append_of_le (htext'.symm.trans htext) ha
  rw [byteLength_append, byteLength_append, Nat.add_lt_add_iff_left] at hb
  obtain ⟨more, rfl, hback⟩ := append_eq_append_of_le hrest.symm (Nat.le_of_lt hb)
  cases more with
  | nil =>
      rw [List.append_nil] at hb
      omega
  | cons d more =>
      obtain rfl : c = d := (List.cons.inj hback).1
      exact hline c (by simp)

/-- A text that ends with a line terminator does not stop in a line. -/
theorem not_stopsInLine
    {front : List Char}
    {c : Char}
    (hline : isLineTerminator c = true) :
    ¬StopsInLine (front ++ [c]) (byteLength (front ++ [c])) := by
  rintro ⟨before, last, back, htext, hlen, hlast⟩
  have hback : back = [] := by
    have := congrArg byteLength htext
    rw [byteLength_append before, byteLength_cons] at this
    exact byteLength_eq_zero.mp (by omega)
  subst hback
  obtain ⟨-, hsame⟩ := List.append_inj' htext rfl
  obtain rfl : c = last := (List.cons.inj hsame).1
  rw [hline] at hlast
  cases hlast

end Syntax

namespace Transpile

open Edit

theorem endsLine_iff {text : String} :
    endsLine text = true ↔ ∃ front, text.toList = front ++ ['\n'] := by
  rw [endsLine, beq_iff_eq, List.getLast?_eq_some_iff]

/-- The last line of a text is not ended if none of its characters ends a line. -/
theorem endsLine_of_line
    {text : String}
    {front line : List Char}
    (htext : text.toList = front ++ line)
    (hfilled : line ≠ [])
    (hline : ∀ c ∈ line, isLineTerminator c = false) :
    text ≠ "" ∧ endsLine text = false := by
  constructor
  · rintro rfl
    simp [hfilled] at htext
  · rw [Bool.eq_false_iff]
    intro hends
    obtain ⟨before, hbefore⟩ := endsLine_iff.mp hends
    have hlast := congrArg List.getLast? (htext.symm.trans hbefore)
    rw [List.getLast?_append_of_ne_nil _ hfilled, List.getLast?_concat] at hlast
    exact absurd (hline _ (List.mem_of_getLast? hlast)) (by decide)

theorem ne_empty_of_endsLine {text : String} (h : endsLine text = true) : text ≠ "" := by
  rintro rfl
  cases h

theorem endsLine_append {text : String} (front : String) (h : endsLine text = true) :
    endsLine (front ++ text) = true := by
  obtain ⟨line, hline⟩ := endsLine_iff.mp h
  exact endsLine_iff.mpr ⟨front.toList ++ line, by simp [hline]⟩

/-! ### The code of the targets -/

/-- The targets that a module is transpiled or built for. -/
inductive Shipped : Target → Prop where
  | named
      {name : String}
      {target : Target}
      (h : targetNamed name = .ok target) :
      Shipped target
  | commonJs (paths : List (String × String)) : Shipped (Target.commonJs paths)
  | system (links : Target.SystemLinks) : Shipped (Target.system links)

/-- Generated code before and behind the statements consists of whole lines. -/
structure WholeLines (target : Target) : Prop where
  prologue : ∀ view prologue, target.prologue view = .ok prologue → endsLine prologue = true
  epilogue : ∀ view, target.epilogue view = "" ∨ endsLine (target.epilogue view) = true

/-- Getters that are put behind a whole line end a line. -/
theorem endsLine_exportGetters
    {front : String}
    (hfront : endsLine front = true)
    (object : String)
    (accessors : List (String × String))
    (format : FormatOptions)
    (depth : Nat) :
    endsLine (front ++ exportGetters object accessors format depth) = true := by
  unfold exportGetters
  split
  · rwa [String.append_empty]
  · exact endsLine_append _ (endsLine_append _ (by decide))

theorem endsLine_moduleGetters
    {front getters : String}
    {view : ModuleView}
    (hfront : endsLine front = true)
    (h : moduleGetters view = .ok getters) :
    endsLine (front ++ getters) = true := by
  obtain ⟨accessors, -, h⟩ := bind_eq_ok.mp h
  cases h
  exact endsLine_exportGetters hfront _ _ _ _

theorem endsLine_cjsPrologue
    {view : ModuleView}
    {prologue : String}
    (h : Target.cjsPrologue view = .ok prologue) :
    endsLine prologue = true := by
  obtain ⟨getters, hgetters, h⟩ := bind_eq_ok.mp h
  cases h
  exact endsLine_moduleGetters (endsLine_append _ (endsLine_append _ (by decide))) hgetters

theorem endsLine_exportsPrologue
    {view : ModuleView}
    {prologue : String}
    (h : Target.exportsPrologue view = .ok prologue) :
    endsLine prologue = true := by
  obtain ⟨getters, hgetters, h⟩ := bind_eq_ok.mp h
  cases h
  exact endsLine_moduleGetters (endsLine_append _ (by decide)) hgetters

theorem Shipped.wholeLines {target : Target} (h : Shipped target) : WholeLines target := by
  cases h with
  | named hname =>
      unfold targetNamed at hname
      split at hname
      · cases hname
        exact ⟨fun _ _ => endsLine_cjsPrologue, fun _ => .inl rfl⟩
      · cases hname
        exact ⟨fun _ _ => endsLine_exportsPrologue, fun _ => .inl rfl⟩
      · cases hname
        exact ⟨fun _ _ => endsLine_cjsPrologue, fun _ => .inl rfl⟩
      · cases hname
        exact ⟨fun _ _ => endsLine_cjsPrologue, fun _ => .inl rfl⟩
      · cases hname
        exact ⟨fun _ _ => endsLine_exportsPrologue, fun _ => .inr (endsLine_append _ (by decide))⟩
      · cases hname
  | commonJs paths =>
      refine ⟨fun view prologue hprologue => ?_, fun _ => .inl rfl⟩
      obtain ⟨getters, hgetters, h⟩ := bind_eq_ok.mp hprologue
      cases h
      exact endsLine_moduleGetters (endsLine_append _ (by decide)) hgetters
  | system links =>
      refine ⟨fun view prologue hprologue => ?_, fun _ => .inl rfl⟩
      obtain ⟨accessors, -, h⟩ := bind_eq_ok.mp hprologue
      cases h
      exact endsLine_append _ (endsLine_append _ (by decide))

/-! ### The place of the prologue and what separates it -/

/-- The prologue goes to some byte, as some code with some text before it. -/
inductive PrologueAt (program : Program) (text prologue : String) :
    Nat → String → String → Prop where
  | directive
      {span : Span}
      (h : program.directives.getLast? = some span) :
      PrologueAt program text prologue span.stop "\n" (trimNewlines prologue)
  | statement
      {item : Item}
      (hdirectives : program.directives = [])
      (h : program.items.head? = some item) :
      PrologueAt program text prologue item.span.start "" prologue
  | finish
      (hdirectives : program.directives = [])
      (h : program.items = []) :
      PrologueAt program text prologue (byteLength text.toList)
        (if text == "" || endsLine text then "" else "\n") prologue

theorem exists_prologueAt
    {prologue : String}
    (hprologue : prologue ≠ "")
    (program : Program)
    (text : String) :
    ∃ p separator code, PrologueAt program text prologue p separator code ∧
      prologueEdit program text prologue = .insert p (separator ++ code) := by
  unfold prologueEdit
  rw [if_neg (by simpa using hprologue)]
  split
  · rename_i span hspan
    exact ⟨_, _, _, .directive hspan, rfl⟩
  · rename_i hnone
    have hdirectives := List.getLast?_eq_none_iff.mp hnone
    split
    · rename_i item hitem
      exact ⟨_, _, _, .statement hdirectives hitem, by rw [String.empty_append]⟩
    · rename_i hitems
      exact ⟨_, _, _, .finish hdirectives (List.head?_eq_none_iff.mp hitems), rfl⟩

/-- No statement begins at the end of the text. -/
theorem start_lt_end
    {program : Program}
    {text : String}
    (hparse : Program.parse text = .ok program)
    {item : Item}
    (hitem : item ∈ program.items) :
    item.span.start < byteLength text.toList := by
  obtain ⟨directives, last, -, -, hspaced, hgap, -⟩ := Program.spaced_of_parse hparse
  have hmem := List.mem_append_right directives hitem
  obtain ⟨before, begin, hfollows, -⟩ := hspaced.follows_of_mem hmem
  have hlt := hfollows.start_lt
  have hstop := (hspaced.laid.placed hmem).2
  have hlast := hgap.le
  omega

namespace PrologueAt

variable {program : Program} {text prologue separator code : String} {p : Nat}

theorem code_eq (h : PrologueAt program text prologue p separator code) :
    code = prologue ∨ code = trimNewlines prologue := by
  cases h with
  | directive => exact .inr rfl
  | statement => exact .inl rfl
  | finish => exact .inl rfl

/-- The place is reached by reading the text. -/
theorem lexed
    (h : PrologueAt program text prologue p separator code)
    (hparse : Program.parse text = .ok program) :
    ∃ comments, Lexed text.toList program.hashbangStop p comments := by
  obtain ⟨directives, hdirectives, hreached, hend⟩ := Program.lexed_of_parse hparse
  rw [hashbangStop_of_parse hparse]
  cases h with
  | directive hlast =>
      rw [hdirectives] at hlast
      obtain ⟨item, hitem, rfl⟩ := List.mem_map.mp (List.mem_of_getLast? hlast)
      exact (hreached item (List.mem_append_left _ hitem)).stop
  | statement _ hitem =>
      exact (hreached _ (List.mem_append_right _ (List.mem_of_head? hitem))).start
  | finish => exact hend

/-- All statements come behind the place. -/
theorem le_start
    (h : PrologueAt program text prologue p separator code)
    {first middle last : Nat}
    (hlaid : program.LaidOut text.toList first middle last)
    {item : Item}
    (hitem : item ∈ program.items) :
    p ≤ item.span.start := by
  have hmiddle := (hlaid.items.placed hitem).1.lo_le
  cases h with
  | directive hlast =>
      exact Nat.le_trans (hlaid.directives _ (List.mem_of_getLast? hlast)).2.2.1 hmiddle
  | @statement front _ hfront =>
      obtain ⟨items, hitems⟩ := List.head?_eq_some_iff.mp hfront
      have hlaid' := hlaid.items
      rw [hitems] at hitem hlaid'
      rcases List.mem_cons.mp hitem with rfl | hitem
      · exact Nat.le_refl _
      · have hstop := (hlaid'.2.placed hitem).1.lo_le
        have hplaced := hlaid'.1
        exact Nat.le_trans (Nat.le_trans hplaced.start_le hplaced.inner_le)
          (Nat.le_trans hplaced.stop_le hstop)
  | finish _ hnone => simp [hnone] at hitem

/-- At the end of a text whose last line is not ended, the prologue begins another line. -/
theorem separator_of_end
    (h : PrologueAt program text prologue (byteLength text.toList) separator code)
    (hparse : Program.parse text = .ok program)
    (htext : text ≠ "" ∧ endsLine text = false) :
    separator = "\n" := by
  generalize hp : byteLength text.toList = p at h
  cases h with
  | directive => rfl
  | statement _ hitem =>
      have hlt := start_lt_end hparse (List.mem_of_head? hitem)
      omega
  | finish => simp [htext]

/-- At the end of a text whose last line is ended, the prologue stands with all its line feeds. -/
theorem code_of_end
    (h : PrologueAt program text prologue (byteLength text.toList) separator code)
    (hparse : Program.parse text = .ok program)
    (htext : endsLine text = true) :
    code = prologue := by
  generalize hp : byteLength text.toList = p at h
  cases h with
  | directive hlast =>
      -- a directive ends with a token, and no token has a line feed at its end
      obtain ⟨directives, hdirectives, hreached, -⟩ := Program.lexed_of_parse hparse
      rw [hdirectives] at hlast
      obtain ⟨item, hitem, rfl⟩ := List.mem_map.mp (List.mem_of_getLast? hlast)
      have hstops := (hreached item (List.mem_append_left _ hitem)).stops
      obtain ⟨front, hfront⟩ := endsLine_iff.mp htext
      rw [← hp, hfront] at hstops
      exact absurd hstops (not_stopsInLine rfl)
  | statement => rfl
  | finish => rfl

end PrologueAt

/-! ### Lines of the output -/

namespace Assembly

variable {target : Target} {text : String} {options : TranspileOptions}
variable {separator code : String} {p : Nat}

/-- The output up to the byte `p` of the text, without what is inserted there. -/
def passed (a : Assembly target text options) (p : Nat) : List Char :=
  a.header.toList ++ Edit.passed a.edits 0 (Piece.splitBytes p text.toList).1

/-- The output before the prologue, which goes to the byte `p` behind a separator. -/
def beforePrologue
    (a : Assembly target text options)
    (p : Nat)
    (separator : String) :
    List Char :=
  a.passed p ++ insertion (a.declarations ++ a.references) p ++ separator.toList

theorem passed_eq
    {front rest : List Char}
    (a : Assembly target text options)
    (htext : text.toList = front ++ rest) :
    a.passed (byteLength front) = a.header.toList ++ Edit.passed a.edits 0 front := by
  rw [passed, htext, Piece.splitBytes_byteLength]

/-- The prologue is put at the byte `p`, as some code behind a separator. -/
structure Puts (a : Assembly target text options) (p : Nat) (separator code : String) : Prop where
  filled : a.prologue ≠ ""
  place : PrologueAt a.program text a.prologue p separator code
  boundary : Boundary text.toList p
  insert : a.prologueInsert = .insert p (separator ++ code)

theorem exists_puts
    (a : Assembly target text options)
    (hprologue : a.prologue ≠ "") :
    ∃ p separator code, a.Puts p separator code := by
  obtain ⟨p, separator, code, hplace, hinsert⟩ := exists_prologueAt hprologue a.program text
  obtain ⟨first, middle, last, hlaid⟩ := Program.laidOut_of_parse a.hparse
  obtain ⟨q, hspan, hq, -⟩ := prologueEdit_apart hlaid a.prologue a.fits
  rw [hinsert] at hspan
  obtain rfl : p = q := congrArg Span.start hspan
  exact ⟨p, separator, code, hprologue, hplace, hq, hinsert⟩

namespace Puts

variable {a : Assembly target text options}

theorem upTo_eq (h : a.Puts p separator code) :
    a.upTo p = a.beforePrologue p separator ++ code.toList := by
  have hspan : a.prologueInsert.span = ⟨p, p⟩ := congrArg Edit.span h.insert
  obtain ⟨front, back, htext, rfl⟩ := h.boundary
  rw [a.upTo_eq htext, spliced_eq_passed, Nat.zero_add, a.insertion_edits hspan, h.insert,
    beforePrologue, a.passed_eq htext]
  simp [Edit.insert]

theorem first_le
    (h : a.Puts p separator code)
    {first middle last : Nat}
    (hlaid : a.program.LaidOut text.toList first middle last) :
    first ≤ p := by
  have hfirst := (first_le_prologueEdit hlaid h.filled).1
  rwa [← prologueInsert, h.insert] at hfirst

end Puts

theorem forall_edits
    (a : Assembly target text options)
    {P : Edit → Prop}
    (hdeclarations : ∀ e ∈ a.declarations, P e)
    (hreferences : ∀ e ∈ a.references, P e)
    (hprologue : P a.prologueInsert)
    (hhoisted : ∀ e ∈ (hoistHashbang a.program text a.wrapper.header).2, P e) :
    ∀ e ∈ a.edits, P e := by
  simp only [edits, moduleEdits, List.forall_mem_append, List.forall_mem_singleton]
  exact ⟨⟨⟨hdeclarations, hreferences⟩, hprologue⟩, hhoisted⟩

/-- A reference is a name in the text. -/
theorem mem_spansOf_of_reference
    (a : Assembly target text options)
    {e : Edit}
    (he : e ∈ a.references) :
    e.span ∈ spansOf a.program.code :=
  (sublist_spans_renamings a.program a.view a.program.occurrences).subset (List.mem_map_of_mem he)

/-- No line ends in a reference. -/
theorem apart_of_reference
    (a : Assembly target text options)
    {e : Edit}
    (he : e ∈ a.references)
    {front back : List Char}
    {c : Char}
    (htext : text.toList = front ++ c :: back)
    (hline : isLineTerminator c = true) :
    e.span.stop ≤ byteLength front ∨ byteLength front < e.span.start := by
  obtain ⟨first, middle, last, hlaid⟩ := Program.laidOut_of_parse a.hparse
  have hword := hlaid.items.spread.oneLine _ (a.mem_spansOf_of_reference he)
  by_contra hcovers
  have hword := hword.isLineTerminator_eq htext (by omega) (by omega)
  rw [hline] at hword
  cases hword

/-! #### Line comments -/

theorem stop_le_of_hoisted
    {program : Program}
    {header : String}
    {e : Edit}
    (he : e ∈ (hoistHashbang program text header).2) :
    e.span.stop ≤ program.hashbangStop + 1 := by
  unfold hoistHashbang at he
  split at he
  · cases he
  · rename_i span hbang
    rw [Program.hashbangStop, hbang]
    split at he
    · cases he
    · obtain rfl := List.mem_singleton.mp he
      simp only [Edit.remove]
      split <;> omega

/-- A line terminator that stands before the prologue and is not the one of the hashbang is kept. -/
theorem Puts.uncovered
    {a : Assembly target text options}
    (h : a.Puts p separator code)
    {front back : List Char}
    {c : Char}
    (htext : text.toList = front ++ c :: back)
    (hline : isLineTerminator c = true)
    (hbang : a.program.hashbangStop < byteLength front)
    (hp : byteLength front < p) :
    a.edits.any (covers (byteLength front)) = false := by
  obtain ⟨first, middle, last, hlaid⟩ := Program.laidOut_of_parse a.hparse
  rw [List.any_eq_false]
  refine a.forall_edits ?_ ?_ ?_ ?_
  · intro e he
    obtain ⟨-, item, hitem, hstart, -⟩ := a.fits.inside e he
    have hle := h.place.le_start hlaid hitem
    rw [covers_iff]
    omega
  · intro e he
    have := a.apart_of_reference he htext hline
    rw [covers_iff]
    omega
  · rw [covers_iff, h.insert]
    simp only [Edit.insert]
    omega
  · intro e he
    have := stop_le_of_hoisted he
    rw [covers_iff]
    omega

/-- A kept line terminator separates what stands before it from what stands behind it. -/
theorem lineBetween_passed
    (a : Assembly target text options)
    {front between back : List Char}
    {c : Char}
    (htext : text.toList = front ++ c :: between ++ back)
    (hline : isLineTerminator c = true)
    (hkept : a.edits.any (covers (byteLength front)) = false) :
    LineBetween (a.passed (byteLength front)) (a.passed (byteLength (front ++ c :: between))) := by
  refine ⟨insertion a.edits (byteLength front) ++ [c] ++
    Edit.passed a.edits (byteLength front + c.utf8Size) between, ?_, c, by simp, hline⟩
  rw [a.passed_eq htext, a.passed_eq (htext.trans (List.append_assoc _ _ _)), passed_append_cons,
    spliced_eq_passed, Nat.zero_add, inPlace_of_uncovered hkept]
  simp only [List.append_assoc]

/-- The prologue stands in another line than every line comment before it. -/
theorem Puts.lineBetween_of_comment
    {a : Assembly target text options}
    (h : a.Puts p separator code)
    {comment : Span}
    (hcomment : LineComment text.toList a.program.hashbangStop p comment) :
    LineBetween (a.passed comment.stop) (a.beforePrologue p separator) := by
  obtain ⟨front, body, back, htext, hstart, hstop, hbody, hback⟩ := hcomment.line
  have hlo := hcomment.lo_le
  have hhi := hcomment.stop_le
  rw [← hstop]
  cases back with
  | nil =>
      -- the text ends with the comment, and the separator ends its line
      rw [List.append_nil] at htext
      obtain rfl : p = byteLength text.toList := by
        have := h.boundary.le_byteLength
        rw [htext, hstop] at this ⊢
        omega
      have hends := endsLine_of_line htext (by simp) (by simpa using ⟨by decide, hbody⟩)
      rw [h.place.separator_of_end a.hparse hends, beforePrologue, ← htext]
      refine ⟨_, List.append_assoc _ _ _, '\n', by simp, rfl⟩
  | cons c back =>
      obtain ⟨hline, hle⟩ := hback c rfl
      have hlt := hcomment.start_lt
      have hpos := c.utf8Size_pos
      rw [← hstop] at hle
      obtain ⟨between, rest, htext', rfl⟩ := h.boundary.exists_between htext hle
      have hkept := h.uncovered htext hline (by omega) (by omega)
      have hbetween := (a.lineBetween_passed htext' hline hkept).append
        (insertion (a.declarations ++ a.references)
          (byteLength (front ++ '/' :: '/' :: body ++ c :: between)) ++ separator.toList)
      rwa [← List.append_assoc] at hbetween

/-! #### The hashbang -/

/-- The line takes the front of the text for itself: the line as it is or without the space at its
end, and then a line terminator. -/
def OwnLine (line front : List Char) : Prop :=
  ∃ kept c, (kept = line ∨ kept = (trimEnd (String.ofList line)).toList) ∧
    isLineTerminator c = true ∧ kept ++ [c] <+: front

/-- A text that is nothing but a hashbang is kept before the prologue, in a line of its own. -/
theorem Puts.beforePrologue_of_end
    {a : Assembly target text options}
    (h : a.Puts p separator code)
    (hheader : a.header = "")
    (hbehind : Behind (byteLength text.toList) a.edits)
    (hplace : byteLength text.toList ≤ p)
    (htext : text ≠ "" ∧ endsLine text = false) :
    a.beforePrologue p separator = text.toList ++ ['\n'] := by
  obtain ⟨first, middle, last, hlaid⟩ := Program.laidOut_of_parse a.hparse
  obtain rfl : p = byteLength text.toList := Nat.le_antisymm h.boundary.le_byteLength hplace
  have hkept := passed_kept (p := 0) text.toList [] (by simpa using hbehind)
  have hnothing : insertion (a.declarations ++ a.references) (byteLength text.toList) = [] := by
    refine insertion_eq_nil (List.forall_mem_append.mpr ⟨?_, ?_⟩)
    · intro e he
      obtain ⟨-, item, hitem, -⟩ := a.fits.inside e he
      have hstart := h.place.le_start hlaid hitem
      have hlt := start_lt_end a.hparse hitem
      omega
    · intro e he
      have hlt := (hlaid.items.spread.inside _ (a.mem_spansOf_of_reference he)).2.1
      rw [insertsAt_iff]
      omega
  rw [beforePrologue, a.passed_eq (List.append_nil _).symm, hnothing, hheader,
    h.place.separator_of_end a.hparse htext]
  simpa [Edit.passed] using hkept

/-- Without a wrapper, all edits stand behind the hashbang. -/
theorem behind_edits
    (a : Assembly target text options)
    (hwrapper : a.wrapper.header = "")
    (hprologue : a.prologue ≠ "")
    {first middle last : Nat}
    (hlaid : a.program.LaidOut text.toList first middle last) :
    a.header = "" ∧ ∀ q ≤ first, Behind q a.edits := by
  have hedits : a.edits = a.body := by
    change a.body ++ (hoistHashbang a.program text a.wrapper.header).2 = _
    rw [hwrapper, hoistHashbang_empty, List.append_nil]
  refine ⟨by rw [header, hwrapper, hoistHashbang_empty], fun q hq e he => ?_⟩
  rw [hedits] at he
  have := a.behind_body hprologue hlaid e he
  omega

/-- The hashbang has the first line of the output for itself. -/
theorem Puts.ownLine_of_hashbang
    {a : Assembly target text options}
    (h : a.Puts p separator code)
    {line behind : List Char}
    (htext : text.toList = line ++ behind)
    (hline : HashbangLine line behind)
    (hbang : a.program.hashbang = some ⟨0, byteLength line⟩) :
    OwnLine line (a.beforePrologue p separator) := by
  by_cases hwrapper : a.wrapper.header = ""
  · -- nothing is put before the module
    obtain ⟨first, middle, last, hlaid⟩ := Program.laidOut_of_parse a.hparse
    obtain ⟨hheader, hbehind⟩ := a.behind_edits hwrapper h.filled hlaid
    have hplace := h.first_le hlaid
    cases behind with
    | nil =>
        rw [List.append_nil] at htext
        have hfirst : byteLength line ≤ first := (hlaid.hashbang _ hbang).2.1
        have hfilled : line ≠ [] := by
          rintro rfl
          simpa using hline.marked
        have hends := endsLine_of_line (htext.trans (List.nil_append _).symm) hfilled hline.line
        rw [← htext] at hfirst
        refine ⟨line, '\n', .inl rfl, rfl, [], ?_⟩
        rw [h.beforePrologue_of_end hheader (hbehind _ hfirst) (Nat.le_trans hfirst hplace)
          hends, htext, List.append_nil]
    | cons c behind =>
        have hend := hline.behind c rfl
        have hfirst : byteLength line + c.utf8Size ≤ first :=
          hlaid.newline _ hbang line c behind hend htext rfl
        obtain ⟨between, rest, htext', rfl⟩ :=
          h.boundary.exists_between htext (Nat.le_trans hfirst hplace)
        have hkept := passed_kept (p := 0) (line ++ [c]) between (hbehind _ (by simpa using hfirst))
        refine ⟨line, c, .inl rfl, hend, ?_⟩
        rw [beforePrologue, a.passed_eq htext', hheader]
        simp only [List.append_assoc, List.singleton_append] at hkept
        rw [hkept]
        simp
  · refine ⟨_, '\n', .inr rfl, rfl, ?_⟩
    rw [beforePrologue, passed, header, hoistHashbang_some hbang htext hwrapper]
    simp

/-! #### The end -/

/-- No edit reaches the line feed at the end of the text, unless the prologue goes there. -/
theorem Puts.stop_le_of_end
    {a : Assembly target text options}
    (h : a.Puts p separator code)
    {front : List Char}
    (htext : text.toList = front ++ ['\n'])
    (hp : p ≤ byteLength front) :
    ∀ e ∈ a.edits, e.span.stop ≤ byteLength front := by
  obtain ⟨first, middle, last, hlaid⟩ := Program.laidOut_of_parse a.hparse
  obtain ⟨directives, -, hreached, -⟩ := Program.lexed_of_parse a.hparse
  have hlen : byteLength text.toList = byteLength front + 1 := by
    rw [htext, byteLength_append]
    rfl
  have hlast := hlaid.last_le
  have hplace := h.first_le hlaid
  refine a.forall_edits ?_ ?_ ?_ ?_
  · intro e he
    obtain ⟨-, item, hitem, -, hstop⟩ := a.fits.inside e he
    have hle := (hlaid.items.placed hitem).2
    have hstops := (hreached item (List.mem_append_right _ hitem)).stops
    have hne : item.span.stop ≠ byteLength text.toList := by
      intro heq
      rw [heq, htext] at hstops
      exact not_stopsInLine rfl hstops
    omega
  · intro e he
    have hinside := hlaid.items.spread.inside _ (a.mem_spansOf_of_reference he)
    have := a.apart_of_reference he htext rfl
    omega
  · rw [h.insert]
    exact hp
  · rcases hoistHashbang_edits hlaid a.wrapper.header with hnone | ⟨e, hsome, -, -, hstop, -⟩
    · rw [hnone]
      simp
    · rw [hsome, List.forall_mem_singleton]
      omega

/-- A text that ends its last line still ends it behind the edits. -/
theorem Puts.lineStart_upTo
    {a : Assembly target text options}
    (h : a.Puts p separator code)
    (hprologue : endsLine a.prologue = true)
    (htext : endsLine text = true) :
    LineStart (a.upTo (byteLength text.toList)) := by
  rcases Nat.eq_or_lt_of_le h.boundary.le_byteLength with rfl | hlt
  · obtain ⟨line, hline⟩ := endsLine_iff.mp hprologue
    rw [h.upTo_eq, h.place.code_of_end a.hparse htext, hline]
    exact .inr (by simp)
  · obtain ⟨front, hfront⟩ := endsLine_iff.mp htext
    have hfeed : '\n'.utf8Size = 1 := rfl
    have hlen : byteLength text.toList = byteLength front + 1 := by
      rw [hfront, byteLength_append]
      rfl
    have hstop := h.stop_le_of_end hfront (by omega)
    have hkept : a.edits.any (covers (byteLength front)) = false := by
      rw [List.any_eq_false]
      intro e he
      have := hstop e he
      rw [covers_iff]
      omega
    have hnothing : insertion a.edits (byteLength front + 1) = [] := by
      refine insertion_eq_nil fun e he => ?_
      have := hstop e he
      rw [insertsAt_iff]
      omega
    rw [a.upTo_eq (List.append_nil _).symm, hfront, spliced_append_cons, Nat.zero_add,
      inPlace_of_uncovered hkept, hfeed, spliced, hnothing]
    exact .inr (by simp)

/-- The generated code stands in lines where it takes effect.  The prologue goes to the byte `p` of
the text, and `before` is the output before it. -/
structure ClearLines (a : Assembly target text options) (r : Rendered) (p : Nat)
    (before : List Char) : Prop where
  prologue :
    ∃ code, (code = a.prologue ∨ code = trimNewlines a.prologue) ∧
      a.upTo p = before ++ code.toList ∧ a.upTo p <+: r.code.toList
  /-- The place is reached by reading the text behind the hashbang. -/
  read : ∃ comments, Lexed text.toList a.program.hashbangStop p comments
  /-- The prologue comes in another line than the line comments before it, however they are read. -/
  comments :
    ∀ comments, Lexed text.toList a.program.hashbangStop p comments →
      ∀ comment ∈ comments, LineBetween (a.passed comment.stop) before
  hashbang :
    ['#', '!'] <+: text.toList →
      ∃ line behind, text.toList = line ++ behind ∧ HashbangLine line behind ∧ OwnLine line before
  /-- The epilogue and the footer begin lines, behind everything that comes from the text. -/
  ending :
    ∃ body,
      r.code.toList = body ++ (target.epilogue a.view).toList ++ a.wrapper.footer.toList ∧
      a.upTo (byteLength text.toList) <+: body ∧ LineStart body ∧
      LineStart (body ++ (target.epilogue a.view).toList)

theorem Gives.ending
    {a : Assembly target text options}
    {r : Rendered}
    (h : a.Gives r)
    (htarget : WholeLines target)
    (htext : endsLine text = true → LineStart (a.upTo (byteLength text.toList))) :
    ∃ body,
      r.code.toList = body ++ (target.epilogue a.view).toList ++ a.wrapper.footer.toList ∧
      a.upTo (byteLength text.toList) <+: body ∧ LineStart body ∧
      LineStart (body ++ (target.epilogue a.view).toList) := by
  have hcode := h.code
  rw [← a.upTo_eq (List.append_nil _).symm, footer, tail] at hcode
  have hlast : ∀ body, LineStart body →
      LineStart (body ++ (target.epilogue a.view).toList) := by
    intro body hbody
    rcases htarget.epilogue a.view with hnone | hline
    · simpa [hnone] using hbody
    · obtain ⟨line, hline⟩ := endsLine_iff.mp hline
      rw [hline]
      exact .inr (by simp)
  split at hcode
  · have hbody : LineStart (a.upTo (byteLength text.toList) ++ ['\n']) := .inr (by simp)
    refine ⟨_, ?_, List.prefix_append _ _, hbody, hlast _ hbody⟩
    rw [hcode]
    simp
  · rename_i hended
    rw [Bool.or_eq_true, not_or] at hended
    have hbody := htext (by simpa using hended.2)
    refine ⟨_, ?_, List.prefix_refl _, hbody, hlast _ hbody⟩
    rw [hcode]
    simp

end Assembly

/-- Generated code is never lost in a line comment or in the hashbang. -/
theorem clearLines_of_shipped
    {target : Target}
    {text : String}
    {options : TranspileOptions}
    {r : Rendered}
    (htarget : Shipped target)
    (h : transpileFor target text options = .ok r) :
    ∃ (a : Assembly target text options) (p : Nat) (before : List Char),
      a.Gives r ∧ a.prologueInsert.span = ⟨p, p⟩ ∧ a.ClearLines r p before := by
  obtain ⟨a, hr⟩ := exists_assembly h
  have hlines := htarget.wholeLines
  have hends := hlines.prologue _ _ a.hprologue
  obtain ⟨p, separator, code, hputs⟩ := a.exists_puts (ne_empty_of_endsLine hends)
  refine ⟨a, p, a.beforePrologue p separator, hr, congrArg Edit.span hputs.insert, ?_⟩
  refine
    { prologue := ⟨code, hputs.place.code_eq, hputs.upTo_eq, hr.upTo_isPrefix hputs.boundary⟩
      read := hputs.place.lexed a.hparse
      comments := fun comments hlexed comment hcomment =>
        hputs.lineBetween_of_comment (hlexed.lineComment hcomment)
      hashbang := ?_
      ending := hr.ending hlines (hputs.lineStart_upTo hends) }
  intro hmark
  obtain ⟨-, -, -, -, -, -, hbang⟩ := Program.spaced_of_parse a.hparse
  rcases hashbang?_cases text.toList with ⟨hnone, -⟩ | ⟨line, behind, htext, hline, hsome⟩
  · exact absurd hmark hnone
  · exact ⟨line, behind, htext, hline,
      hputs.ownLine_of_hashbang htext hline (hbang.trans hsome)⟩

/-- A hashbang with a space at its end, and a line comment that nothing follows. -/
def lastComment : String :=
  "#!/bin/x \n// note"

theorem lexed_lastComment : Lexed lastComment.toList 9 17 [⟨10, 17⟩] :=
  .gap .start
    ⟨"#!/bin/x ".toList, "\n// note".toList, [], true, by decide, by decide, by decide, by decide,
      by decide⟩

/-- The prologue comes behind the comment and in another line, and the hashbang is put before the
wrapper. -/
theorem clearLines_of_shipped_lastComment :
    Shipped Target.yui ∧
      ∃ r, transpileFor Target.yui lastComment registered = .ok r ∧
        r.code = "#!/bin/x\nYUI.add(\"n\", function (Y, NAME, __imports__, __exports__) \x7b\n" ++
          "// note\nvar __es6_module__ = __exports__;\n\nreturn __es6_module__;\n" ++
          "\x7d, \"@VERSION@\", \x7b \"es\": true, \"requires\": [] \x7d);\n" ∧
        ∃ (a : Assembly Target.yui lastComment registered) (before : List Char),
          a.Gives r ∧ a.ClearLines r 17 before ∧ LineBetween (a.passed 17) before := by
  have hshipped : Shipped Target.yui := .named (show targetNamed "yui" = .ok Target.yui from rfl)
  have hcode : (transpileFor Target.yui lastComment registered).toOption.map (·.code) =
      some ("#!/bin/x\nYUI.add(\"n\", function (Y, NAME, __imports__, __exports__) \x7b\n" ++
        "// note\nvar __es6_module__ = __exports__;\n\nreturn __es6_module__;\n" ++
        "\x7d, \"@VERSION@\", \x7b \"es\": true, \"requires\": [] \x7d);\n") := by
    simp only [transpileFor_eq]
    decide +kernel
  have hread : ((Program.parse lastComment).toOption.map fun p =>
      (p.hashbangStop, p.directives, p.items.map Item.span)) = some (9, [], []) := by
    decide +kernel
  obtain ⟨r, hr, hcode⟩ := ok_of_toOption_map hcode
  obtain ⟨a, p, before, hgives, hspan, hclear⟩ := clearLines_of_shipped hshipped hr
  rw [a.hparse] at hread
  simp only [Except.toOption, Option.map_some, Option.some.injEq, Prod.mk.injEq,
    List.map_eq_nil_iff] at hread
  obtain ⟨hstop, hdirectives, hitems⟩ := hread
  have hprologue := ne_empty_of_endsLine (hshipped.wholeLines.prologue _ _ a.hprologue)
  have hlen : byteLength lastComment.toList = 17 := by
    decide
  have hplace : a.prologueInsert.span = ⟨17, 17⟩ := by
    simp [Assembly.prologueInsert, prologueEdit, hprologue, hdirectives, hitems, Edit.insert, hlen]
  obtain rfl : p = 17 := congrArg Span.start (hspan.symm.trans hplace)
  have hcomment := hclear.comments [⟨10, 17⟩] (hstop ▸ lexed_lastComment) ⟨10, 17⟩ (by simp)
  exact ⟨hshipped, r, hr, hcode, a, before, hgives, hclear, hcomment⟩

end Transpile
end EsModules
