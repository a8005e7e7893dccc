import EsModules.Proofs.Edit.Spliced
import EsModules.Proofs.Transpile.References

/-!
# The edits of a module do not overlap

Three sources of edits meet in a module: its imports and exports, its references, and the prologue
with the hashbang.  A statement is edited in front of its inner part, or right behind it, or as a
whole when no reference is left in it (`Clear`); its references lie in the inner part.  Since the
statements follow one another, all edits are apart (`applicable_edits`).
-/

namespace EsModules
namespace Transpile

open Syntax

variable {text : List Char} {target : Target} {view : ModuleView}

/-! ### One statement -/

/-- The edits of a statement stay inside it, apart from one another and from its identifiers. -/
structure Clear (text : List Char) (item : Item) (edits : List Edit) : Prop where
  inside :
    ∀ e ∈ edits,
      item.span.start ≤ e.span.start ∧ e.span.start ≤ e.span.stop ∧ e.span.stop ≤ item.span.stop
  boundary : ∀ e ∈ edits, Boundary text e.span.start ∧ Boundary text e.span.stop
  unnamed : ∀ e ∈ edits, e.named = false
  apart : edits.Pairwise fun a b => a.span.Apart b.span
  code : ∀ e ∈ edits, ∀ x ∈ spansOf item.code, e.span.Apart x

theorem Clear.nil (item : Item) : Clear text item [] :=
  ⟨by simp, by simp, by simp, .nil, by simp⟩

/-- A statement without identifiers is edited as a whole. -/
theorem Clear.whole
    {lo : Nat}
    {item : Item}
    {e : Edit}
    (hplaced : item.Placed text lo)
    (hcode : spansOf item.code = [])
    (hspan : e.span = item.span)
    (hnamed : e.named = false) :
    Clear text item [e] := by
  have := hplaced.start_le
  have := hplaced.inner_le
  have := hplaced.stop_le
  refine ⟨?_, ?_, by simpa using hnamed, List.pairwise_singleton _ _, by simp [hcode]⟩
  · simp only [List.forall_mem_singleton, hspan]
    omega
  · simpa only [List.forall_mem_singleton, hspan] using hplaced.wholeSpan

/-- A statement is edited in front of its inner part. -/
theorem Clear.front
    {lo : Nat}
    {item : Item}
    {e : Edit}
    (hplaced : item.Placed text lo)
    (hspan : e.span = ⟨item.span.start, item.inner.start⟩)
    (hnamed : e.named = false) :
    Clear text item [e] := by
  have hstart := hplaced.start_le
  have hinner := hplaced.inner_le
  have hstop := hplaced.stop_le
  refine ⟨?_, ?_, by simpa using hnamed, List.pairwise_singleton _ _, ?_⟩
  · simp only [List.forall_mem_singleton, hspan]
    omega
  · simp only [List.forall_mem_singleton, hspan]
    exact ⟨hplaced.wholeSpan.1, hplaced.wholeInner.1⟩
  · simp only [List.forall_mem_singleton, hspan]
    intro x hx
    rcases hplaced.mem_code hx with hx | hx
    · exact .inr hx
    · exact .inl hx.1

/-- A statement is edited in front of its inner part and right behind it. -/
theorem Clear.around
    {lo : Nat}
    {item : Item}
    {e e' : Edit}
    (hplaced : item.Placed text lo)
    (hspan : e.span = ⟨item.span.start, item.inner.start⟩)
    (hspan' : e'.span = ⟨item.inner.stop, item.inner.stop⟩)
    (hnamed : e.named = false)
    (hnamed' : e'.named = false) :
    Clear text item [e, e'] := by
  have hstart := hplaced.start_le
  have hinner := hplaced.inner_le
  have hstop := hplaced.stop_le
  have hfront := Clear.front hplaced hspan hnamed
  refine ⟨?_, ?_, by simpa using ⟨hnamed, hnamed'⟩, ?_, ?_⟩
  · rw [List.forall_mem_cons]
    refine ⟨hfront.inside e (by simp), ?_⟩
    simp only [List.forall_mem_singleton, hspan']
    omega
  · rw [List.forall_mem_cons]
    refine ⟨hfront.boundary e (by simp), ?_⟩
    simp only [List.forall_mem_singleton, hspan']
    exact ⟨hplaced.wholeInner.2, hplaced.wholeInner.2⟩
  · refine List.pairwise_cons.mpr ⟨?_, List.pairwise_singleton _ _⟩
    simp only [List.forall_mem_singleton, hspan, hspan']
    exact .inl hinner
  · rw [List.forall_mem_cons]
    refine ⟨hfront.code e (by simp), ?_⟩
    simp only [List.forall_mem_singleton, hspan']
    intro x hx
    rcases hplaced.mem_code hx with hx | hx
    · exact .inr (by simp only; omega)
    · exact .inr hx.2

theorem clear_defaultEdits
    {lo : Nat}
    {span inner : Span}
    {value : DefaultValue}
    {code : List Node}
    (hplaced : (Item.exportDefault span inner value code).Placed text lo) :
    Clear text (.exportDefault span inner value code) (defaultEdits span inner value) := by
  cases value with
  | function name =>
      cases name with
      | some name => exact .front hplaced rfl rfl
      | none => exact .around hplaced rfl rfl rfl rfl
  | classDef name =>
      cases name with
      | some name => exact .front hplaced rfl rfl
      | none => exact .around hplaced rfl rfl rfl rfl
  | name name => exact .whole hplaced rfl rfl rfl
  | expression => exact .front hplaced rfl rfl
  | interface => exact .front hplaced rfl rfl

theorem span_replaceOrRemove (span : Span) (text : String) :
    (replaceOrRemove span text).span = span := by
  unfold replaceOrRemove
  split <;> rfl

theorem text_replaceOrRemove (span : Span) (text : String) :
    (replaceOrRemove span text).text = text := by
  unfold replaceOrRemove
  split
  · rename_i hempty
    exact (beq_iff_eq.mp hempty).symm
  · rfl

theorem named_replaceOrRemove (span : Span) (text : String) :
    (replaceOrRemove span text).named = false := by
  unfold replaceOrRemove
  split <;> rfl

/-- The handle and the registry key of every source are known. -/
structure Ready (view : ModuleView) : Prop where
  closed : view.catalog.Closed
  keys : ∀ source ∈ view.catalog.sources, ∃ key, view.keys.find? (·.1 == source) = some key

theorem load_eq_ok
    (hview : Ready view)
    (target : Target)
    (loaded : List String)
    {source : String}
    (h : source ∈ view.catalog.sources) :
    ∃ r, load target view loaded source = .ok r := by
  obtain ⟨handle, -, hrequire⟩ := requireHandle_of_mem h
  obtain ⟨⟨_, key⟩, hkey⟩ := hview.keys source h
  by_cases hloaded : loaded.contains source
  · exact ⟨(handle, ""), bind_eq_ok.mpr ⟨handle, hrequire, if_pos hloaded⟩⟩
  · refine ⟨(handle, target.importStatement view ⟨handle, source, key⟩),
      bind_eq_ok.mpr ⟨handle, hrequire, (if_neg hloaded).trans ?_⟩⟩
    rw [hkey]
    rfl

/-- The statements of a module whose sources are known are edited without touching its
references. -/
theorem itemEdits_eq_ok
    {lo : Nat}
    {item : Item}
    (hview : Ready view)
    (hplaced : item.Placed text lo)
    (hsource : ∀ source, item.source? = some source → source ∈ view.catalog.sources)
    (target : Target)
    (loaded : List String) :
    ∃ edits sources, itemEdits target view loaded item = .ok (edits, sources) ∧
      Clear text item edits := by
  cases item with
  | imports span source bindings =>
      obtain ⟨r, hload⟩ := load_eq_ok hview target loaded (hsource source rfl)
      refine ⟨_, _, by rw [itemEdits, hload]; rfl, ?_⟩
      exact .whole hplaced (by simp [Item.code]) (span_replaceOrRemove _ _)
        (named_replaceOrRemove _ _)
  | exportDeclaration span inner exported code => exact ⟨_, _, rfl, .front hplaced rfl rfl⟩
  | exportList span specifiers => exact ⟨_, _, rfl, .whole hplaced rfl rfl rfl⟩
  | exportFrom span source specifiers =>
      obtain ⟨r, hload⟩ := load_eq_ok hview target loaded (hsource source rfl)
      refine ⟨_, _, by rw [itemEdits, hload]; rfl, ?_⟩
      exact .whole hplaced rfl (span_replaceOrRemove _ _) (named_replaceOrRemove _ _)
  | exportDefault span inner value code => exact ⟨_, _, rfl, clear_defaultEdits hplaced⟩
  | exportAll span source exported =>
      obtain ⟨r, hload⟩ := load_eq_ok hview target loaded (hsource source rfl)
      cases exported with
      | some name =>
          refine ⟨_, _, by rw [itemEdits, hload]; rfl, ?_⟩
          exact .whole hplaced rfl (span_replaceOrRemove _ _) (named_replaceOrRemove _ _)
      | none =>
          refine ⟨_, _, by rw [itemEdits, hload]; rfl, ?_⟩
          exact .whole hplaced rfl (span_replaceOrRemove _ _) (named_replaceOrRemove _ _)
  | statement span isText code => exact ⟨_, _, rfl, .nil _⟩

/-! ### All statements -/

/-- The edits of several statements stay inside these, apart from one another and from all
identifiers. -/
structure Fits (text : List Char) (items : List Item) (edits : List Edit) : Prop where
  inside :
    ∀ e ∈ edits, e.span.start ≤ e.span.stop ∧
      ∃ item ∈ items, item.span.start ≤ e.span.start ∧ e.span.stop ≤ item.span.stop
  boundary : ∀ e ∈ edits, Boundary text e.span.start ∧ Boundary text e.span.stop
  unnamed : ∀ e ∈ edits, e.named = false
  apart : edits.Pairwise fun a b => a.span.Apart b.span
  code : ∀ e ∈ edits, ∀ x ∈ spansOf (items.flatMap Item.code), e.span.Apart x

/-- The edits of the first statement come before those of the others. -/
theorem Fits.cons
    {lo hi : Nat}
    {item : Item}
    {items : List Item}
    {edits more : List Edit}
    (hlaid : Laid text lo (item :: items) hi)
    (hfirst : Clear text item edits)
    (hrest : Fits text items more) :
    Fits text (item :: items) (edits ++ more) := by
  obtain ⟨hplaced, hbehind⟩ := hlaid
  have hmore : ∀ e ∈ more, item.span.stop ≤ e.span.start := by
    intro e he
    obtain ⟨-, other, hother, hstart, -⟩ := hrest.inside e he
    exact Nat.le_trans (hbehind.placed hother).1.lo_le hstart
  refine ⟨?_, ?_, ?_, ?_, ?_⟩
  · intro e he
    rcases List.mem_append.mp he with he | he
    · obtain ⟨hstart, hle, hstop⟩ := hfirst.inside e he
      exact ⟨hle, item, by simp, hstart, hstop⟩
    · obtain ⟨hle, other, hother, hbounds⟩ := hrest.inside e he
      exact ⟨hle, other, by simp [hother], hbounds⟩
  · exact List.forall_mem_append.mpr ⟨hfirst.boundary, hrest.boundary⟩
  · exact List.forall_mem_append.mpr ⟨hfirst.unnamed, hrest.unnamed⟩
  · rw [List.pairwise_append]
    refine ⟨hfirst.apart, hrest.apart, fun a ha b hb => .inl ?_⟩
    exact Nat.le_trans (hfirst.inside a ha).2.2 (hmore b hb)
  · intro e he x hx
    rw [List.flatMap_cons, spansOf_append] at hx
    rcases List.mem_append.mp he with he | he <;> rcases List.mem_append.mp hx with hx | hx
    · exact hfirst.code e he x hx
    · exact .inl (Nat.le_trans (hfirst.inside e he).2.2 (hbehind.spread.inside x hx).1)
    · exact .inr (Nat.le_trans (hplaced.spread.inside x hx).2.2 (hmore e he))
    · exact hrest.code e he x hx

theorem declarationEdits_eq_ok
    {lo hi : Nat}
    {items : List Item}
    (hview : Ready view)
    (hlaid : Laid text lo items hi)
    (hsources :
      ∀ item ∈ items, ∀ source, item.source? = some source → source ∈ view.catalog.sources)
    (target : Target)
    (loaded : List String) :
    ∃ edits, declarationEdits target view loaded items = .ok edits ∧
      Fits text items edits := by
  induction items generalizing lo loaded with
  | nil => exact ⟨[], rfl, by simp, by simp, by simp, .nil, by simp⟩
  | cons item items ih =>
      obtain ⟨edits, sources, hitem, hclear⟩ :=
        itemEdits_eq_ok hview hlaid.1 (hsources item (by simp)) target loaded
      obtain ⟨more, hmore, hfits⟩ :=
        ih hlaid.2 (fun other hother => hsources other (by simp [hother])) (loaded ++ sources)
      refine ⟨edits ++ more, ?_, .cons hlaid hclear hfits⟩
      exact bind_eq_ok.mpr ⟨_, hitem, bind_eq_ok.mpr ⟨more, hmore, rfl⟩⟩

/-! ### Slices -/

/-- A line feed is found where the next character is one. -/
theorem slice_one
    {text : String}
    {front back : List Char}
    (htext : text.toList = front ++ back) :
    (Text.slice text ⟨Text.byteLength front, Text.byteLength front + 1⟩ == "\n") =
      (back.take 1 == ['\n']) := by
  have hslice : Text.slice text ⟨Text.byteLength front, Text.byteLength front + 1⟩ =
      String.ofList ((Text.takeBytes 1 back).getD []) := by
    rw [Text.slice, Text.slice?, if_pos (Nat.le_succ _), htext, Text.dropBytes_append]
    simp
  have hlist : (String.ofList ((Text.takeBytes 1 back).getD []) = "\n") ↔
      (Text.takeBytes 1 back).getD [] = ['\n'] := by
    rw [← String.toList_inj, String.toList_ofList]
    rfl
  rw [hslice, Bool.eq_iff_iff, beq_iff_eq, beq_iff_eq, hlist]
  cases back with
  | nil => simp [Text.takeBytes]
  | cons c back =>
      have hpos := c.utf8Size_pos
      have hnone : 0 + 1 - c.utf8Size = 0 := by omega
      rw [Text.takeBytes, hnone, Text.takeBytes]
      by_cases hsize : c.utf8Size ≤ 0 + 1
      · simp [hsize]
      · have hother : c ≠ '\n' := by
          rintro rfl
          exact hsize (by decide)
        simp [hsize, hother]

/-- A slice that is not empty stands in the text where its span begins. -/
theorem slice_eq
    {text : String}
    {span : Span}
    {c : Char}
    {cs : List Char}
    (h : Text.slice text span = String.ofList (c :: cs)) :
    ∃ front back, text.toList = front ++ c :: cs ++ back ∧ Text.byteLength front = span.start := by
  have hchars : (Text.slice? text.toList span).getD [] = c :: cs := by
    simpa [Text.slice] using congrArg String.toList h
  unfold Text.slice? at hchars
  split at hchars
  · cases hdrop : Text.dropBytes span.start text.toList with
    | none => simp [hdrop] at hchars
    | some rest =>
        cases htake : Text.takeBytes (span.stop - span.start) rest with
        | none => simp [hdrop, htake] at hchars
        | some got =>
            obtain rfl : got = c :: cs := by simpa [hdrop, htake] using hchars
            obtain ⟨front, htext, hlen⟩ := Text.dropBytes_eq_some hdrop
            obtain ⟨back, rfl⟩ := Text.takeBytes_eq_some htake
            exact ⟨front, back, by simp [htext], hlen⟩
  · simp at hchars

/-! ### The hashbang -/

/-- The hashbang is removed with its line feed, before everything else. -/
theorem hoistHashbang_edits
    {text : String}
    {program : Program}
    {first middle last : Nat}
    (hlaid : program.LaidOut text.toList first middle last)
    (header : String) :
    (hoistHashbang program text header).2 = [] ∨
      ∃ e, (hoistHashbang program text header).2 = [e] ∧ e.named = false ∧ e.span.start = 0 ∧
        e.span.stop ≤ first ∧ Boundary text.toList e.span.stop := by
  unfold hoistHashbang
  split
  · exact .inl rfl
  · rename_i span hbang
    split
    · exact .inl rfl
    · obtain ⟨hstart, hstop, hboundary⟩ := hlaid.hashbang span hbang
      refine .inr ⟨_, rfl, rfl, hstart, ?_⟩
      simp only [Edit.remove]
      split
      · rename_i hline
        have hslice : Text.slice text ⟨span.stop, span.stop + 1⟩ = String.ofList ['\n'] :=
          beq_iff_eq.mp hline
        obtain ⟨front, back, htext, hlen⟩ := slice_eq hslice
        refine ⟨hlaid.newline span hbang front '\n' back rfl (by simpa using htext) hlen,
          front ++ ['\n'], back, htext, ?_⟩
        rw [Text.byteLength_append, hlen]
        rfl
      · exact ⟨hstop, hboundary⟩

/-! ### The prologue -/

/-- The prologue goes to a place between the other edits and identifiers. -/
theorem prologueEdit_apart
    {text : String}
    {program : Program}
    {first middle last : Nat}
    (hlaid : program.LaidOut text.toList first middle last)
    (prologue : String)
    {declarations : List Edit}
    (hfits : Fits text.toList program.items declarations) :
    ∃ p, (prologueEdit program text prologue).span = ⟨p, p⟩ ∧ Boundary text.toList p ∧
      (p = 0 ∨ first ≤ p) ∧
      (∀ e ∈ declarations, (⟨p, p⟩ : Span).Apart e.span) ∧
      ∀ x ∈ spansOf program.code, (⟨p, p⟩ : Span).Apart x := by
  have hmiddle : ∀ e ∈ declarations, middle ≤ e.span.start := by
    intro e he
    obtain ⟨-, item, hitem, hstart, -⟩ := hfits.inside e he
    exact Nat.le_trans (hlaid.items.placed hitem).1.lo_le hstart
  have hle : last ≤ Text.byteLength text.toList := hlaid.last_le
  have hlast : middle ≤ last := hlaid.items.le
  have hfirst : first ≤ middle := hlaid.first_le
  unfold prologueEdit
  split
  · exact ⟨0, rfl, ⟨[], text.toList, rfl, rfl⟩, .inl rfl, fun _ _ => .inl (Nat.zero_le _),
      fun _ _ => .inl (Nat.zero_le _)⟩
  · split
    · rename_i directive hdirective
      obtain ⟨hstart, hstop, hbefore, hboundary⟩ :=
        hlaid.directives directive (List.mem_of_getLast? hdirective)
      refine ⟨directive.stop, rfl, hboundary, .inr (by omega), fun e he => .inl ?_,
        fun x hx => .inl ?_⟩
      · exact Nat.le_trans hbefore (hmiddle e he)
      · exact Nat.le_trans hbefore (hlaid.items.spread.inside x hx).1
    · cases hitems : program.items with
      | nil =>
          refine ⟨Text.byteLength text.toList, rfl, ⟨text.toList, [], by simp, rfl⟩,
            .inr (by omega), ?_, ?_⟩
          · intro e he
            obtain ⟨-, item, hitem, -⟩ := hfits.inside e he
            simp [hitems] at hitem
          · intro x hx
            simp [Program.code, hitems] at hx
      | cons item items =>
          have hrest := hlaid.items
          rw [hitems] at hrest
          obtain ⟨hplaced, hbehind⟩ := hrest
          have hspan := (hplaced.mono (Nat.le_refl _)).lo_le
          have hstop := hbehind.le
          have hinner := hplaced.start_le
          have hinner' := hplaced.inner_le
          have hinner'' := hplaced.stop_le
          refine ⟨item.span.start, rfl, hplaced.wholeSpan.1, .inr (by omega), fun e he => .inl ?_,
            fun x hx => ?_⟩
          · obtain ⟨-, other, hother, hstart, -⟩ := hfits.inside e he
            rw [hitems] at hother
            rcases List.mem_cons.mp hother with rfl | hother
            · exact hstart
            · have := (hbehind.placed hother).1.lo_le
              simp only
              omega
          · rw [Program.code, hitems, List.flatMap_cons, spansOf_append] at hx
            rcases List.mem_append.mp hx with hx | hx
            · rcases hplaced.mem_code hx with hx | hx
              · exact .inr hx
              · exact .inl (Nat.le_trans hinner hx.1)
            · have := (hbehind.spread.inside x hx).1
              exact .inl (by simp only; omega)

/-- A prologue goes behind the hashbang. -/
theorem first_le_prologueEdit
    {text : String}
    {program : Program}
    {first middle last : Nat}
    (hlaid : program.LaidOut text.toList first middle last)
    {prologue : String}
    (h : prologue ≠ "") :
    first ≤ (prologueEdit program text prologue).span.start ∧
      (prologueEdit program text prologue).span.start ≤
        (prologueEdit program text prologue).span.stop := by
  have hfirst : first ≤ middle := hlaid.first_le
  have hmiddle : middle ≤ last := hlaid.items.le
  have hlast : last ≤ Text.byteLength text.toList := hlaid.last_le
  unfold prologueEdit
  rw [if_neg (by simpa using h)]
  split
  · rename_i directive hdirective
    have := hlaid.directives directive (List.mem_of_getLast? hdirective)
    simp only [Edit.insert]
    omega
  · split
    · rename_i item hitem
      have := (hlaid.items.placed (List.mem_of_head? hitem)).1.lo_le
      simp only [Edit.insert]
      omega
    · simp only [Edit.insert]
      omega

theorem named_prologueEdit (program : Program) (text prologue : String) :
    (prologueEdit program text prologue).named = false := by
  unfold prologueEdit
  repeat' split
  all_goals rfl

/-! ### All edits -/

/-- The edits of a module, in the order in which they are recorded. -/
def moduleEdits (program : Program) (text prologue header : String)
    (declarations references : List Edit) : List Edit :=
  declarations ++ references ++ [prologueEdit program text prologue] ++
    (hoistHashbang program text header).2

/-- All edits of a module can be applied together. -/
theorem applicable_edits
    {text : String}
    {program : Program}
    {first middle last : Nat}
    (hlaid : program.LaidOut text.toList first middle last)
    (prologue header : String)
    {declarations references : List Edit}
    (hfits : Fits text.toList program.items declarations)
    (hreferences : (references.map (·.span)).Sublist (spansOf program.code)) :
    Edit.Applicable text.toList
      (moduleEdits program text prologue header declarations references) := by
  have hspread := hlaid.items.spread
  have hreference : ∀ e ∈ references, e.span ∈ spansOf program.code :=
    fun e he => hreferences.subset (List.mem_map_of_mem he)
  obtain ⟨p, hprologue, hp, hplace, hpd, hpr⟩ := prologueEdit_apart hlaid prologue hfits
  have hbody : ∀ e ∈ declarations ++ references, middle ≤ e.span.start ∧
      e.span.start ≤ e.span.stop := by
    intro e he
    rcases List.mem_append.mp he with he | he
    · obtain ⟨hle, item, hitem, hstart, -⟩ := hfits.inside e he
      exact ⟨Nat.le_trans (hlaid.items.placed hitem).1.lo_le hstart, hle⟩
    · obtain ⟨hstart, hlt, -⟩ := hspread.inside e.span (hreference e he)
      exact ⟨hstart, Nat.le_of_lt hlt⟩
  have happlicable : Edit.Applicable text.toList
      (declarations ++ references ++ [prologueEdit program text prologue]) := by
    refine ⟨?_, ?_, ?_⟩
    · refine List.forall_mem_append.mpr ⟨fun e he => (hbody e he).2, ?_⟩
      simp [hprologue]
    · refine List.forall_mem_append.mpr ⟨List.forall_mem_append.mpr ⟨hfits.boundary, ?_⟩, ?_⟩
      · exact fun e he => hspread.whole e.span (hreference e he)
      · simpa [hprologue] using hp
    · rw [List.pairwise_append, List.pairwise_append]
      refine ⟨⟨hfits.apart, ?_, fun a ha b hb => hfits.code a ha b.span (hreference b hb)⟩,
        List.pairwise_singleton _ _, fun a ha b hb => ?_⟩
      · refine List.pairwise_map.mp ((hspread.ordered.sublist hreferences).imp ?_)
        exact fun h => Or.inl h
      · rw [List.mem_singleton.mp hb, hprologue]
        rcases List.mem_append.mp ha with ha | ha
        · exact (hpd a ha).symm
        · exact (hpr a.span (hreference a ha)).symm
  rw [moduleEdits]
  rcases hoistHashbang_edits hlaid header with hnone | ⟨h, hsome, -, hstart, hstop, hboundary⟩
  · rwa [hnone, List.append_nil]
  · -- the hashbang ends before the statements and before the prologue, unless that is empty
    have hfirst : first ≤ middle := hlaid.first_le
    rw [hsome]
    refine ⟨?_, ?_, ?_⟩
    · refine List.forall_mem_append.mpr ⟨happlicable.start_le, ?_⟩
      simp [hstart]
    · refine List.forall_mem_append.mpr ⟨happlicable.whole, ?_⟩
      rw [List.forall_mem_singleton, hstart]
      exact ⟨⟨[], text.toList, rfl, rfl⟩, hboundary⟩
    · rw [List.pairwise_append]
      refine ⟨happlicable.apart, List.pairwise_singleton _ _, fun a ha b hb => ?_⟩
      rw [List.mem_singleton.mp hb]
      rcases List.mem_append.mp ha with ha | ha
      · have := hbody a ha
        exact .inr (by omega)
      · rw [List.mem_singleton.mp ha, hprologue]
        rcases hplace with rfl | hplace
        · exact .inl (Nat.zero_le _)
        · exact .inr (Nat.le_trans hstop hplace)

end Transpile
end EsModules
