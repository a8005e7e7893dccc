import EsModules.Proofs.Transpile.ClearLines

/-!
# Statements next to one another

Statements that are neither imports nor exports are kept.  Where two of them become neighbours in
the output, because they are neighbours in the source or because what stands between them leaves
nothing, the text between them is that of the source: no semicolon and no line feed is put there
(`kept_neighbours`).  The beginning of a kept statement changes only where it is an identifier that
reads an import: a default import is read by an expression in parentheses, all others by a word.

An operand never ends before a parenthesis, whatever lines they stand on.  So a statement that ends
with an operand and has no semicolon goes on with the next one if that begins with a default import
(`merges_openStatement`), and ends before all other imports.
-/

namespace EsModules

open Syntax Text

/-! ### Stretches without insertions -/

namespace Edit

variable {edits inner : List Edit} {p : Nat}

/-- What stands in the place of a text that begins at the byte `p`, without insertions. -/
def inPlaces (edits : List Edit) : Nat → List Char → List Char
  | _, [] => []
  | p, c :: cs => inPlace edits p c ++ inPlaces edits (p + c.utf8Size) cs

theorem inPlaces_append (edits : List Edit) (p : Nat) (front back : List Char) :
    inPlaces edits p (front ++ back) =
      inPlaces edits p front ++ inPlaces edits (p + byteLength front) back := by
  induction front generalizing p with
  | nil => rfl
  | cons c front ih => simp [inPlaces, ih, Nat.add_assoc]

/-- Stretches are edited alike if their characters are. -/
theorem inPlaces_congr
    {cs : List Char}
    (h : ∀ q c, p ≤ q → q < p + byteLength cs → inPlace edits q c = inPlace inner q c) :
    inPlaces edits p cs = inPlaces inner p cs := by
  induction cs generalizing p with
  | nil => rfl
  | cons c cs ih =>
      have hpos := c.utf8Size_pos
      rw [byteLength_cons] at h
      rw [inPlaces, inPlaces, h p c (Nat.le_refl _) (by omega),
        ih fun q d hle hlt => h q d (by omega) (by omega)]

/-- What stands in the place of a character depends on the edits that cover it only. -/
theorem inPlace_congr
    {q : Nat}
    (h : edits.filter (covers q) = inner.filter (covers q))
    (c : Char) :
    inPlace edits q c = inPlace inner q c := by
  have hany : ∀ all : List Edit, all.any (covers q) = (all.filter (covers q)).any (covers q) := by
    intro all
    rw [List.any_filter]
    simp
  have hfrom : ∀ all : List Edit,
      all.filter (replacesFrom q) = (all.filter (covers q)).filter (replacesFrom q) := by
    intro all
    rw [List.filter_filter]
    refine List.filter_congr fun e _ => ?_
    rw [Bool.eq_iff_iff, Bool.and_eq_true, replacesFrom_iff, covers_iff]
    omega
  rw [inPlace, inPlace, hany edits, hany inner, hfrom edits, hfrom inner, h]

theorem inPlaces_eq_nil
    {cs : List Char}
    (h : ∀ q c, p ≤ q → q < p + byteLength cs → inPlace edits q c = []) :
    inPlaces edits p cs = [] := by
  induction cs generalizing p with
  | nil => rfl
  | cons c cs ih =>
      have hpos := c.utf8Size_pos
      rw [byteLength_cons] at h
      rw [inPlaces, h p c (Nat.le_refl _) (by omega),
        ih fun q d hle hlt => h q d (by omega) (by omega)]
      rfl

theorem inPlaces_nil (p : Nat) (cs : List Char) : inPlaces [] p cs = cs := by
  induction cs generalizing p with
  | nil => rfl
  | cons c cs ih => simp [inPlaces, inPlace, ih]

/-- Where nothing is inserted, each character stands in its place. -/
theorem spliced_uninserted
    (cs rest : List Char)
    (h : ∀ q, p ≤ q → q < p + byteLength cs → insertion edits q = []) :
    spliced edits p (cs ++ rest) =
      inPlaces edits p cs ++ spliced edits (p + byteLength cs) rest := by
  induction cs generalizing p with
  | nil => rfl
  | cons c cs ih =>
      have hpos := c.utf8Size_pos
      rw [byteLength_cons] at h
      rw [List.cons_append, spliced, h p (Nat.le_refl _) (by omega),
        ih fun q hle hlt => h q (by omega) (by omega), inPlaces, byteLength_cons]
      simp [Nat.add_assoc]

/-- A stretch into which nothing is inserted is found in the output. -/
theorem spliced_stretch
    {front middle : List Char}
    (hmiddle : middle ≠ [])
    (back : List Char)
    (h : ∀ q, byteLength front < q → q < byteLength (front ++ middle) → insertion edits q = []) :
    spliced edits 0 (front ++ (middle ++ back)) =
      spliced edits 0 front ++ (inPlaces edits (byteLength front) middle ++
        spliced edits (byteLength (front ++ middle)) back) := by
  obtain ⟨c, middle, rfl⟩ := List.exists_cons_of_ne_nil hmiddle
  have hpos := c.utf8Size_pos
  rw [byteLength_append, byteLength_cons] at h
  rw [List.cons_append, spliced_append_cons, Nat.zero_add,
    spliced_uninserted middle back fun q hle hlt => h q (by omega) (by omega), inPlaces,
    byteLength_append, byteLength_cons]
  simp [Nat.add_assoc]

theorem uninserted_of_filled
    (h : ∀ e ∈ edits, e.span.start < e.span.stop)
    (q : Nat) :
    insertion edits q = [] := by
  refine insertion_eq_nil fun e he => ?_
  have := h e he
  rw [insertsAt_iff]
  omega

theorem spliced_of_filled
    (h : ∀ e ∈ edits, e.span.start < e.span.stop)
    (p : Nat)
    (cs : List Char) :
    spliced edits p cs = inPlaces edits p cs := by
  have hspliced := spliced_uninserted cs [] (p := p) fun q _ _ => uninserted_of_filled h q
  rwa [List.append_nil, spliced, uninserted_of_filled h, List.append_nil] at hspliced

end Edit

/-! ### Texts between bytes -/

theorem Text.toList_slice
    {text : String}
    {front middle back : List Char}
    (htext : text.toList = front ++ (middle ++ back)) :
    (slice text ⟨byteLength front, byteLength (front ++ middle)⟩).toList = middle := by
  have hsize : byteLength (front ++ middle) - byteLength front = byteLength middle := by
    rw [byteLength_append]
    omega
  have hle : byteLength front ≤ byteLength (front ++ middle) := by simp
  rw [slice, String.toList_ofList, htext, slice?, if_pos hle, dropBytes_append]
  simp only [hsize]
  rw [Option.bind_eq_bind, Option.bind_some, takeBytes_append]
  rfl

/-- No boundary falls in a character. -/
theorem Syntax.Boundary.le_of_lt
    {text front back : List Char}
    {c : Char}
    {p : Nat}
    (hp : Boundary text p)
    (htext : text = front ++ c :: back)
    (hlt : byteLength front < p) :
    byteLength (front ++ [c]) ≤ p := by
  obtain ⟨front', rest, htext', rfl⟩ := hp
  obtain ⟨between, rfl, hrest⟩ := append_eq_append_of_le (htext.symm.trans htext') (by omega)
  cases between with
  | nil => simp at hlt
  | cons d between =>
      cases hrest
      simp

section Slices

variable {text : String} {a b c : Nat}

theorem Text.byteLength_slice
    (ha : Boundary text.toList a)
    (hb : Boundary text.toList b)
    (hab : a ≤ b) :
    a + byteLength (slice text ⟨a, b⟩).toList = b := by
  obtain ⟨front, middle, back, htext, rfl, rfl⟩ := Boundary.parts ha hb hab
  rw [toList_slice htext, byteLength_append]

theorem Text.slice_append
    (ha : Boundary text.toList a)
    (hb : Boundary text.toList b)
    (hc : Boundary text.toList c)
    (hab : a ≤ b)
    (hbc : b ≤ c) :
    (slice text ⟨a, c⟩).toList = (slice text ⟨a, b⟩).toList ++ (slice text ⟨b, c⟩).toList := by
  obtain ⟨front, middle, rest, htext, rfl, rfl⟩ := Boundary.parts ha hb hab
  obtain ⟨front', more, back, htext', hfront', rfl⟩ := Boundary.parts hb hc hbc
  rw [← List.append_assoc] at htext
  obtain ⟨rfl, rfl⟩ := append_inj_of_byteLength (htext'.symm.trans htext) hfront'
  have hwhole : text.toList = front ++ ((middle ++ more) ++ back) := by
    rw [htext']
    simp
  rw [toList_slice htext', toList_slice (htext'.trans (List.append_assoc _ _ _)),
    List.append_assoc, toList_slice hwhole]

end Slices

/-- The text from the byte `lo` to the byte `hi` without some statements that stand there. -/
def remains (text : String) : Nat → List Item → Nat → List Char
  | lo, [], hi => (slice text ⟨lo, hi⟩).toList
  | lo, x :: rest, hi => (slice text ⟨lo, x.span.start⟩).toList ++ remains text x.span.stop rest hi

/-- Where nothing but these statements is edited, and they are taken away, the rest is kept. -/
theorem inPlaces_remains
    {text : String}
    {edits : List Edit}
    {items : List Item}
    {lo mid hi : Nat}
    (hspaced : Spaced text.toList lo items mid)
    (hmid : mid ≤ hi)
    (hlo : Boundary text.toList lo)
    (hhi : Boundary text.toList hi)
    (hkept : ∀ q, lo ≤ q → q < hi → (∀ x ∈ items, q < x.span.start ∨ x.span.stop ≤ q) →
      edits.any (Edit.covers q) = false)
    (hgone : ∀ x ∈ items, ∀ q, x.span.start ≤ q → q < x.span.stop →
      edits.any (Edit.covers q) = true ∧
        ∀ e ∈ edits, Edit.replacesFrom q e = true → e.text = "") :
    Edit.inPlaces edits lo (slice text ⟨lo, hi⟩).toList = remains text lo items hi := by
  induction items generalizing lo with
  | nil =>
      obtain rfl : lo = mid := hspaced
      obtain ⟨front, middle, back, htext, rfl, rfl⟩ := Boundary.parts hlo hhi hmid
      rw [remains, toList_slice htext]
      refine (Edit.inPlaces_congr fun q c hle hlt => ?_).trans (Edit.inPlaces_nil _ _)
      rw [← byteLength_append] at hlt
      exact Edit.inPlace_of_uncovered (hkept q hle hlt (by simp)) c
  | cons x items ih =>
      obtain ⟨⟨begin, hfollows⟩, hrest⟩ := hspaced
      obtain ⟨hstart, hstop⟩ := hfollows.placed.wholeSpan
      have hlow := Nat.le_trans hfollows.gap.le hfollows.placed.lo_le
      have hlt := hfollows.start_lt
      have hlaid := hrest.laid
      have hhigh : x.span.stop ≤ hi := Nat.le_trans hlaid.le hmid
      have hgap : Edit.inPlaces edits lo (slice text ⟨lo, x.span.start⟩).toList =
          (slice text ⟨lo, x.span.start⟩).toList := by
        refine (Edit.inPlaces_congr fun q c hle hq => ?_).trans (Edit.inPlaces_nil _ _)
        rw [byteLength_slice hlo hstart hlow] at hq
        refine Edit.inPlace_of_uncovered (hkept q hle (by omega) ?_) c
        refine List.forall_mem_cons.mpr ⟨.inl hq, fun y hy => .inl ?_⟩
        have := (hlaid.placed hy).1.lo_le
        omega
      have hnothing : Edit.inPlaces edits x.span.start (slice text x.span).toList = [] := by
        refine Edit.inPlaces_eq_nil fun q c hle hq => ?_
        rw [byteLength_slice hstart hstop (Nat.le_of_lt hlt)] at hq
        obtain ⟨hcovered, hempty⟩ := hgone x List.mem_cons_self q hle hq
        rw [Edit.inPlace_of_covered hcovered, List.flatMap_eq_nil_iff]
        intro e he
        obtain ⟨he, hfrom⟩ := List.mem_filter.mp he
        rw [hempty e he hfrom]
        rfl
      have hbehind := ih hrest hstop
        (fun q hle hq hout => hkept q (by omega) hq
          (List.forall_mem_cons.mpr ⟨.inr hle, hout⟩))
        fun y hy => hgone y (List.mem_cons_of_mem _ hy)
      rw [slice_append hlo hstart hhi hlow (by omega),
        slice_append hstart hstop hhi (Nat.le_of_lt hlt) hhigh, Edit.inPlaces_append,
        Edit.inPlaces_append, byteLength_slice hlo hstart hlow,
        byteLength_slice hstart hstop (Nat.le_of_lt hlt), hgap, hnothing, hbehind, remains]
      rfl

namespace Transpile

open Edit

/-! ### Statements that leave nothing -/

/-- The statement is neither an import nor an export. -/
def Kept : Item → Prop
  | .statement _ _ _ => True
  | _ => False

instance (x : Item) : Decidable (Kept x) :=
  match x with
  | .statement _ _ _ => .isTrue trivial
  | .imports _ _ _ | .exportFrom _ _ _ | .exportAll _ _ _ | .exportList _ _
  | .exportDeclaration _ _ _ _ | .exportDefault _ _ _ _ => .isFalse id

/-- The statement is removed if the `known` modules are loaded already. -/
def LeavesNothing (known : List String) : Item → Prop
  | .imports _ source _ => source ∈ known
  | .exportFrom _ source _ => source ∈ known
  | .exportAll _ source (some _) => source ∈ known
  | .exportList _ _ => True
  | .exportDefault _ _ (.name _) _ => True
  | _ => False

instance (known : List String) (x : Item) : Decidable (LeavesNothing known x) :=
  match x with
  | .imports _ source _ | .exportFrom _ source _ | .exportAll _ source (some _) =>
      inferInstanceAs (Decidable (source ∈ known))
  | .exportList _ _ | .exportDefault _ _ (.name _) _ => .isTrue trivial
  | .statement _ _ _ | .exportDeclaration _ _ _ _ | .exportAll _ _ none
  | .exportDefault _ _ (.function _) _ | .exportDefault _ _ (.classDef _) _
  | .exportDefault _ _ .expression _ | .exportDefault _ _ .interface _ => .isFalse id

theorem LeavesNothing.code {known : List String} {x : Item} (h : LeavesNothing known x) :
    spansOf x.code = [] := by
  cases x with
  | statement => cases h
  | exportDeclaration => cases h
  | exportDefault span inner value code =>
      cases value with
      | name => rfl
      | _ => cases h
  | imports => simp [Item.code]
  | _ => rfl

theorem LeavesNothing.mono
    {known more : List String}
    {x : Item}
    (h : LeavesNothing known x)
    (hsub : known ⊆ more) :
    LeavesNothing more x := by
  cases x with
  | imports => exact hsub h
  | exportFrom => exact hsub h
  | exportAll span source name =>
      cases name with
      | none => cases h
      | some => exact hsub h
  | exportList => trivial
  | exportDefault span inner value code =>
      cases value with
      | name => trivial
      | _ => cases h
  | _ => cases h

/-- It is edited by taking it away. -/
theorem LeavesNothing.itemEdits
    {target : Target}
    {view : ModuleView}
    {loaded named : List String}
    {x : Item}
    {own : List Edit}
    (hx : LeavesNothing loaded x)
    (h : itemEdits target view loaded x = .ok (own, named)) :
    own = [.remove x.span] := by
  have hloaded : ∀ span source, source ∈ loaded →
      (load target view loaded source >>= fun loading =>
        pure ([replaceOrRemove span loading.2], [source])) = .ok (own, named) →
      own = [.remove span] := by
    intro span source hsource h
    obtain ⟨⟨handle, statement⟩, hload, h⟩ := bind_eq_ok.mp h
    obtain ⟨handle', -, hload⟩ := bind_eq_ok.mp hload
    rw [if_pos (List.contains_iff_mem.mpr hsource)] at hload
    cases hload
    cases h
    rfl
  cases x with
  | imports span source bindings => exact hloaded span source hx h
  | exportFrom span source specifiers => exact hloaded span source hx h
  | exportAll span source name =>
      cases name with
      | none => cases hx
      | some name => exact hloaded span source hx h
  | exportList span specifiers =>
      cases h
      rfl
  | exportDefault span inner value code =>
      cases value with
      | name name =>
          cases h
          rfl
      | _ => cases hx
  | _ => cases hx

theorem declarationEdits_of_leavesNothing
    {target : Target}
    {view : ModuleView}
    {loaded : List String}
    {items : List Item}
    {edits : List Edit}
    (hitems : ∀ x ∈ items, LeavesNothing loaded x)
    (h : declarationEdits target view loaded items = .ok edits) :
    edits = items.map fun x => .remove x.span := by
  induction items generalizing loaded edits with
  | nil =>
      cases h
      rfl
  | cons x items ih =>
      obtain ⟨⟨own, named⟩, hown, h⟩ := bind_eq_ok.mp h
      obtain ⟨more, hmore, h⟩ := bind_eq_ok.mp h
      cases h
      obtain ⟨hx, hrest⟩ := List.forall_mem_cons.mp hitems
      rw [hx.itemEdits hown,
        ih (fun y hy => (hrest y hy).mono (List.subset_append_left _ _)) hmore]
      rfl

theorem declarationEdits_of_kept
    {target : Target}
    {view : ModuleView}
    {loaded : List String}
    {x : Item}
    {items : List Item}
    (hx : Kept x) :
    declarationEdits target view loaded (x :: items) =
      declarationEdits target view loaded items := by
  cases x with
  | statement =>
      rw [declarationEdits, itemEdits]
      cases h : declarationEdits target view loaded items with
      | error e => simp [h, bind, Except.bind, pure, Except.pure]
      | ok edits => simp [h, bind, Except.bind, pure, Except.pure]
  | _ => cases hx

namespace Assembly

variable {target : Target} {text : String} {options : TranspileOptions}

/-- The statements of a module are edited part by part. -/
theorem declarationEdits_append
    {loaded : List String}
    {front back : List Item}
    {edits : List Edit}
    (a : Assembly target text options)
    (h : declarationEdits target a.view loaded (front ++ back) = .ok edits) :
    ∃ first more, declarationEdits target a.view loaded front = .ok first ∧
      declarationEdits target a.view (loaded ++ front.filterMap Item.source?) back = .ok more ∧
      edits = first ++ more := by
  induction front generalizing loaded edits with
  | nil => exact ⟨[], edits, rfl, by simpa using h, rfl⟩
  | cons x front ih =>
      obtain ⟨⟨own, named⟩, hown, h⟩ := bind_eq_ok.mp h
      obtain ⟨rest, hrest, h⟩ := bind_eq_ok.mp h
      cases h
      obtain ⟨rfl, -⟩ := a.loads_itemEdits hown
      obtain ⟨first, more, hfirst, hmore, rfl⟩ := ih hrest
      refine ⟨own ++ first, more, ?_, ?_, by simp⟩
      · exact bind_eq_ok.mpr ⟨_, hown, bind_eq_ok.mpr ⟨first, hfirst, rfl⟩⟩
      · rw [List.filterMap_cons]
        cases hsource : x.source? <;> simpa [hsource] using hmore

end Assembly

/-! ### Neighbours -/

/-- Two statements of a list that are kept, with nothing but statements between them that leave
nothing. -/
structure Neighbours
    (items before : List Item)
    (s : Item)
    (between : List Item)
    (t : Item)
    (behind : List Item) :
    Prop where
  items : items = before ++ s :: (between ++ t :: behind)
  first : Kept s
  second : Kept t
  gone : ∀ x ∈ between, LeavesNothing (before.filterMap Item.source?) x

theorem follows_of_kept
    {text : List Char}
    {lo : Nat}
    {x : Item}
    (hx : Kept x)
    (h : ∃ begin, x.Follows text lo begin) :
    x.Follows text lo x.span.start := by
  obtain ⟨begin, h⟩ := h
  have hplain : ¬x.IsExport := by
    cases x with
    | statement => exact id
    | _ => cases hx
  rw [h.start_eq hplain]
  exact h

theorem spansOf_flatMap_eq_nil
    {items : List Item}
    (h : ∀ x ∈ items, spansOf x.code = []) :
    spansOf (items.flatMap Item.code) = [] := by
  induction items with
  | nil => rfl
  | cons x items ih =>
      obtain ⟨hx, hitems⟩ := List.forall_mem_cons.mp h
      rw [List.flatMap_cons, spansOf_append, hx, ih hitems, List.nil_append]

/-- The places of the statements of a module around two neighbours. -/
structure Around
    (text : List Char)
    (before : List Item)
    (s : Item)
    (between : List Item)
    (t : Item)
    (behind : List Item)
    (lo hi hi' last : Nat) :
    Prop where
  before : Laid text lo before hi
  first : s.Follows text hi s.span.start
  between : Spaced text s.span.stop between hi'
  second : t.Follows text hi' t.span.start
  behind : Laid text t.span.stop behind last

namespace Around

variable {text : List Char} {before between behind : List Item} {s t x : Item}
variable {lo hi hi' last : Nat}

theorem hi_le (h : Around text before s between t behind lo hi hi' last) : hi ≤ s.span.start :=
  h.first.gap.le

theorem hi'_le (h : Around text before s between t behind lo hi hi' last) : hi' ≤ t.span.start :=
  h.second.gap.le

theorem stop_le_start (h : Around text before s between t behind lo hi hi' last) :
    s.span.stop ≤ t.span.start :=
  Nat.le_trans h.between.laid.le h.hi'_le

theorem between_bounds
    (h : Around text before s between t behind lo hi hi' last)
    (hx : x ∈ between) :
    s.span.stop ≤ x.span.start ∧ x.span.start < x.span.stop ∧ x.span.stop ≤ t.span.start := by
  obtain ⟨hplaced, hstop⟩ := h.between.laid.placed hx
  obtain ⟨before, behind, rfl⟩ := List.append_of_mem hx
  obtain ⟨mid, -, ⟨begin, hfollows⟩, -⟩ := h.between.of_append
  exact ⟨hplaced.lo_le, hfollows.start_lt, Nat.le_trans hstop h.hi'_le⟩

/-- The identifiers between the two statements are those of the two statements. -/
theorem spans_cases
    (h : Around text before s between t behind lo hi hi' last)
    (hgone : ∀ x ∈ between, spansOf x.code = [])
    {span : Span}
    (hspan : span ∈ spansOf ((before ++ s :: (between ++ t :: behind)).flatMap Item.code)) :
    span.start < span.stop ∧
      (span.stop ≤ s.span.start ∨ s.span.start ≤ span.start ∧ span.stop ≤ s.span.stop ∨
        t.span.start ≤ span.start ∧ span.stop ≤ t.span.stop ∨ t.span.stop ≤ span.start) := by
  simp only [List.flatMap_append, List.flatMap_cons, spansOf_append, List.mem_append] at hspan
  rcases hspan with hspan | hspan | hspan | hspan | hspan
  · obtain ⟨-, hlt, hstop⟩ := h.before.spread.inside _ hspan
    exact ⟨hlt, .inl (Nat.le_trans hstop h.hi_le)⟩
  · obtain ⟨hstart, hlt, hstop⟩ := h.first.placed.spread.inside _ hspan
    exact ⟨hlt, .inr (.inl ⟨hstart, hstop⟩)⟩
  · rw [spansOf_flatMap_eq_nil hgone] at hspan
    cases hspan
  · obtain ⟨hstart, hlt, hstop⟩ := h.second.placed.spread.inside _ hspan
    exact ⟨hlt, .inr (.inr (.inl ⟨hstart, hstop⟩))⟩
  · obtain ⟨hstart, hlt, -⟩ := h.behind.spread.inside _ hspan
    exact ⟨hlt, .inr (.inr (.inr hstart))⟩

end Around

/-- What becomes of a statement of which only references are edited. -/
def rewritten (text : String) (references : List Edit) (x : Item) : List Char :=
  spliced references x.span.start (slice text x.span).toList

namespace Assembly

variable {target : Target} {text : String} {options : TranspileOptions}
variable {before between behind : List Item} {s t : Item} {lo hi hi' last : Nat}

/-- Two neighbours have their places, behind those of the directives. -/
theorem exists_around
    (a : Assembly target text options)
    (h : Neighbours a.program.items before s between t behind) :
    ∃ lo hi hi' last, Around text.toList before s between t behind lo hi hi' last := by
  obtain ⟨directives, last, -, -, hspaced, -, -⟩ := Program.spaced_of_parse a.hparse
  obtain ⟨lo, -, hitems⟩ := hspaced.of_append
  rw [h.items] at hitems
  obtain ⟨hi, hbefore, hs, hrest⟩ := hitems.of_append
  obtain ⟨hi', hbetween, ht, hbehind⟩ := hrest.of_append
  exact ⟨lo, hi, hi', last, hbefore.laid, follows_of_kept h.first hs, hbetween,
    follows_of_kept h.second ht, hbehind.laid⟩

/-- The edits of the statements stand before the first neighbour, remove the statements between the
two, or stand behind the second one. -/
theorem declarations_eq
    (a : Assembly target text options)
    (h : Neighbours a.program.items before s between t behind)
    (haround : Around text.toList before s between t behind lo hi hi' last) :
    ∃ first rest, a.declarations = first ++ (between.map (fun x => .remove x.span) ++ rest) ∧
      (∀ e ∈ first, e.span.stop ≤ s.span.start) ∧ ∀ e ∈ rest, t.span.stop ≤ e.span.start := by
  have hdeclarations := a.hdeclarations
  rw [h.items] at hdeclarations
  obtain ⟨first, more, hfirst, hmore, hall⟩ := a.declarationEdits_append hdeclarations
  rw [declarationEdits_of_kept h.first] at hmore
  obtain ⟨removed, rest, hremoved, hrest, rfl⟩ := a.declarationEdits_append hmore
  rw [declarationEdits_of_kept h.second] at hrest
  refine ⟨first, rest, ?_, ?_, ?_⟩
  · rw [hall, declarationEdits_of_leavesNothing h.gone hremoved]
  · intro e he
    have hsub : before ⊆ a.program.items := h.items ▸ List.subset_append_left _ _
    obtain ⟨-, x, hx, -, hstop⟩ :=
      (a.fits_of_declarationEdits haround.before hsub hfirst).inside e he
    have := (haround.before.placed hx).2
    have := haround.hi_le
    omega
  · intro e he
    have hsub : behind ⊆ a.program.items := by
      intro x hx
      rw [h.items]
      simp [hx]
    obtain ⟨-, x, hx, hstart, -⟩ :=
      (a.fits_of_declarationEdits haround.behind hsub hrest).inside e he
    have := (haround.behind.placed hx).1.lo_le
    omega

/-- The only other edits there are those of the references. -/
theorem edit_cases
    (a : Assembly target text options)
    (h : Neighbours a.program.items before s between t behind)
    (haround : Around text.toList before s between t behind lo hi hi' last) :
    ∀ e ∈ a.edits, e ∈ a.references ∨ e.span.stop ≤ s.span.start ∨
      t.span.stop ≤ e.span.start ∨ ∃ x ∈ between, e = .remove x.span := by
  obtain ⟨first, middle, last, hlaid⟩ := Program.laidOut_of_parse a.hparse
  have hmem : s ∈ a.program.items := by simp [h.items]
  have hmiddle := (hlaid.items.placed hmem).1.lo_le
  obtain ⟨before, rest, hdeclarations, hbefore, hrest⟩ := a.declarations_eq h haround
  refine a.forall_edits ?_ (fun _ => .inl) ?_ ?_
  · intro e he
    simp only [hdeclarations, List.mem_append, List.mem_map] at he
    rcases he with he | ⟨x, hx, rfl⟩ | he
    · exact .inr (.inl (hbefore e he))
    · exact .inr (.inr (.inr ⟨x, hx, rfl⟩))
    · exact .inr (.inr (.inl (hrest e he)))
  · refine .inr (.inl ?_)
    by_cases hprologue : a.prologue = ""
    · simp [prologueInsert, prologueEdit, hprologue, Edit.insert]
    · obtain ⟨p, separator, code, hputs⟩ := a.exists_puts hprologue
      rw [hputs.insert]
      exact hputs.place.le_start hlaid hmem
  · intro e he
    rcases hoistHashbang_edits hlaid a.wrapper.header with hnone | ⟨e', hsome, -, -, hstop, -⟩
    · rw [hnone] at he
      cases he
    · rw [hsome] at he
      obtain rfl := List.mem_singleton.mp he
      exact .inr (.inl (Nat.le_trans hstop (Nat.le_trans hlaid.first_le hmiddle)))

theorem remove_mem_edits
    (a : Assembly target text options)
    (h : Neighbours a.program.items before s between t behind)
    (haround : Around text.toList before s between t behind lo hi hi' last)
    {x : Item}
    (hx : x ∈ between) :
    .remove x.span ∈ a.edits := by
  obtain ⟨first, rest, hdeclarations, -, -⟩ := a.declarations_eq h haround
  simp only [edits, moduleEdits, hdeclarations, List.mem_append, List.mem_map]
  exact .inl (.inl (.inl (.inr (.inl ⟨x, hx, rfl⟩))))

/-- A reference stands outside the two neighbours or in one of them. -/
theorem reference_cases
    (a : Assembly target text options)
    (h : Neighbours a.program.items before s between t behind)
    (haround : Around text.toList before s between t behind lo hi hi' last)
    {e : Edit}
    (he : e ∈ a.references) :
    e.span.start < e.span.stop ∧
      (e.span.stop ≤ s.span.start ∨ s.span.start ≤ e.span.start ∧ e.span.stop ≤ s.span.stop ∨
        t.span.start ≤ e.span.start ∧ e.span.stop ≤ t.span.stop ∨
          t.span.stop ≤ e.span.start) := by
  have hspan := a.mem_spansOf_of_reference he
  rw [Program.code, h.items] at hspan
  exact haround.spans_cases (fun x hx => (h.gone x hx).code) hspan

theorem named_of_reference
    (a : Assembly target text options)
    {e : Edit}
    (he : e ∈ a.references) :
    e ∈ a.edits ∧ e.named = true := by
  rwa [← a.filter_named_edits, List.mem_filter] at he

theorem filled_of_reference
    (a : Assembly target text options)
    {e : Edit}
    (he : e ∈ a.references) :
    e.span.start < e.span.stop := by
  obtain ⟨first, middle, last, hlaid⟩ := Program.laidOut_of_parse a.hparse
  exact (hlaid.items.spread.inside _ (a.mem_spansOf_of_reference he)).2.1

/-- A statement that is edited in its references only. -/
theorem inPlaces_rewritten
    (a : Assembly target text options)
    {x : Item}
    (hx : x.Follows text.toList lo x.span.start)
    (h : ∀ e ∈ a.edits,
      e ∈ a.references ∨ e.span.stop ≤ x.span.start ∨ x.span.stop ≤ e.span.start) :
    inPlaces a.edits x.span.start (slice text x.span).toList = rewritten text a.references x := by
  obtain ⟨hstart, hstop⟩ := hx.placed.wholeSpan
  rw [rewritten, spliced_of_filled fun e => a.filled_of_reference]
  refine inPlaces_congr fun q c hle hlt => inPlace_congr ?_ c
  rw [byteLength_slice hstart hstop (Nat.le_of_lt hx.start_lt)] at hlt
  rw [← a.filter_named_edits, List.filter_filter]
  refine List.filter_congr fun e he => ?_
  rcases h e he with hreference | hbefore | hbehind
  · rw [(a.named_of_reference hreference).2, Bool.and_true]
  all_goals
    have : covers q e = false := by
      rw [Bool.eq_false_iff, ne_eq, covers_iff]
      omega
    rw [this, Bool.false_and]

/-- Between the two statements only statements that leave nothing are edited. -/
theorem remove_of_covers
    (a : Assembly target text options)
    (h : Neighbours a.program.items before s between t behind)
    (haround : Around text.toList before s between t behind lo hi hi' last)
    {e : Edit}
    (he : e ∈ a.edits)
    {q : Nat}
    (hle : s.span.stop ≤ q)
    (hlt : q < t.span.start)
    (hcovers : covers q e = true) :
    ∃ x ∈ between, e = .remove x.span := by
  have hslt := haround.first.start_lt
  have htlt := haround.second.start_lt
  rw [covers_iff] at hcovers
  rcases a.edit_cases h haround e he with hreference | hbefore | hbehind | hgone
  · have := (a.reference_cases h haround hreference).2
    omega
  · omega
  · omega
  · exact hgone

theorem inPlaces_between
    (a : Assembly target text options)
    (h : Neighbours a.program.items before s between t behind)
    (haround : Around text.toList before s between t behind lo hi hi' last) :
    inPlaces a.edits s.span.stop (slice text ⟨s.span.stop, t.span.start⟩).toList =
      remains text s.span.stop between t.span.start := by
  refine inPlaces_remains haround.between haround.hi'_le haround.first.placed.wholeSpan.2
    haround.second.placed.wholeSpan.1 ?_ ?_
  · intro q hle hlt hout
    rw [List.any_eq_false]
    intro e he hcovers
    obtain ⟨x, hx, rfl⟩ := a.remove_of_covers h haround he hle hlt hcovers
    have := hout x hx
    simp only [covers_iff, Edit.remove] at hcovers
    omega
  · intro x hx q hle hlt
    obtain ⟨hlow, -, hhigh⟩ := haround.between_bounds hx
    refine ⟨List.any_eq_true.mpr
      ⟨_, a.remove_mem_edits h haround hx, covers_iff.mpr ⟨hle, hlt⟩⟩, fun e he hfrom => ?_⟩
    have hcovers : covers q e = true := by
      rw [replacesFrom_iff] at hfrom
      rw [covers_iff]
      omega
    obtain ⟨y, -, rfl⟩ := a.remove_of_covers h haround he (by omega) (by omega) hcovers
    rfl

/-- From the beginning of the first statement to the end of the second one nothing is inserted. -/
theorem insertion_within
    (a : Assembly target text options)
    (h : Neighbours a.program.items before s between t behind)
    (haround : Around text.toList before s between t behind lo hi hi' last)
    {q : Nat}
    (hlow : s.span.start < q)
    (hhigh : q < t.span.stop) :
    insertion a.edits q = [] := by
  refine insertion_eq_nil fun e he => ?_
  rw [insertsAt_iff]
  rcases a.edit_cases h haround e he with hreference | hbefore | hbehind | ⟨x, hx, rfl⟩
  · have := a.filled_of_reference hreference
    omega
  · omega
  · omega
  · have := haround.between_bounds hx
    simp only [Edit.remove]
    omega

/-- Two neighbours are found in the output, with the text between them that remains. -/
theorem spliced_neighbours
    (a : Assembly target text options)
    (h : Neighbours a.program.items before s between t behind) :
    ∃ front back, spliced a.edits 0 text.toList =
      front ++ (rewritten text a.references s ++
        (remains text s.span.stop between t.span.start ++
          (rewritten text a.references t ++ back))) := by
  obtain ⟨lo, hi, hi', last, haround⟩ := a.exists_around h
  have hcases := a.edit_cases h haround
  obtain ⟨hs, hs'⟩ := haround.first.placed.wholeSpan
  obtain ⟨ht, ht'⟩ := haround.second.placed.wholeSpan
  have hslt := haround.first.start_lt
  have htlt := haround.second.start_lt
  have hgap := haround.stop_le_start
  have hfirst : inPlaces a.edits s.span.start (slice text s.span).toList =
      rewritten text a.references s := by
    refine a.inPlaces_rewritten haround.first fun e he => (hcases e he).imp_right ?_
    rintro (hbefore | hbehind | ⟨x, hx, rfl⟩)
    · exact .inl hbefore
    · exact .inr (by omega)
    · exact .inr (haround.between_bounds hx).1
  have hsecond : inPlaces a.edits t.span.start (slice text t.span).toList =
      rewritten text a.references t := by
    refine a.inPlaces_rewritten haround.second fun e he => (hcases e he).imp_right ?_
    rintro (hbefore | hbehind | ⟨x, hx, rfl⟩)
    · exact .inl (by omega)
    · exact .inr hbehind
    · exact .inl (haround.between_bounds hx).2.2
  obtain ⟨front, middle, back, htext, hfront, hmiddle⟩ := Boundary.parts hs ht' (by omega)
  have hparts : middle = (slice text s.span).toList ++
      ((slice text ⟨s.span.stop, t.span.start⟩).toList ++ (slice text t.span).toList) := by
    rw [← toList_slice htext, hfront, hmiddle, slice_append hs hs' ht' (by omega) (by omega),
      slice_append hs' ht ht' hgap (by omega)]
  have hfilled : middle ≠ [] := by
    rintro rfl
    rw [List.append_nil] at hmiddle
    omega
  refine ⟨spliced a.edits 0 front, spliced a.edits (byteLength (front ++ middle)) back, ?_⟩
  rw [htext, spliced_stretch hfilled back]
  · rw [hparts, inPlaces_append, inPlaces_append, hfront,
      byteLength_slice hs hs' (by omega), byteLength_slice hs' ht hgap, hfirst,
      a.inPlaces_between h haround, hsecond]
    simp only [List.append_assoc]
  · intro q hlow hhigh
    rw [hfront] at hlow
    rw [hmiddle] at hhigh
    exact a.insertion_within h haround hlow hhigh

/-! #### Ends of statements -/

theorem applicable_references (a : Assembly target text options) :
    Applicable text.toList a.references := by
  have hmem : ∀ e ∈ a.references, e ∈ a.edits := fun e he => (a.named_of_reference he).1
  refine ⟨fun e he => a.applicable.start_le e (hmem e he),
    fun e he => a.applicable.whole e (hmem e he), ?_⟩
  rw [← a.filter_named_edits]
  exact a.applicable.apart.sublist List.filter_sublist

/-- A statement keeps its first character if no reference begins there. -/
theorem head?_rewritten
    (a : Assembly target text options)
    {x : Item}
    (hout : ∀ e ∈ a.references, e.span.stop ≤ x.span.start ∨ x.span.start < e.span.start) :
    (rewritten text a.references x).head? = (slice text x.span).toList.head? := by
  rw [rewritten, spliced_of_filled fun e => a.filled_of_reference]
  cases hslice : (slice text x.span).toList with
  | nil => rfl
  | cons c cs =>
      have huncovered : a.references.any (covers x.span.start) = false := by
        rw [List.any_eq_false]
        intro e he
        have := hout e he
        rw [covers_iff]
        omega
      rw [inPlaces, inPlace_of_uncovered huncovered]
      rfl

/-- A statement that begins with a reference begins with what takes its place. -/
theorem rewritten_of_reference
    (a : Assembly target text options)
    {x : Item}
    (hx : x.Follows text.toList lo x.span.start)
    {e : Edit}
    (he : e ∈ a.references)
    (hstart : e.span.start = x.span.start) :
    ∃ rest, rewritten text a.references x = e.text.toList ++ rest := by
  have hfilled := a.filled_of_reference he
  have hlen := byteLength_slice hx.placed.wholeSpan.1 hx.placed.wholeSpan.2
    (Nat.le_of_lt hx.start_lt)
  rw [rewritten, spliced_of_filled fun e => a.filled_of_reference]
  cases hslice : (slice text x.span).toList with
  | nil =>
      have := hx.start_lt
      simp only [hslice, byteLength_nil] at hlen
      omega
  | cons c cs =>
      have hcovered : a.references.any (covers x.span.start) = true :=
        List.any_eq_true.mpr ⟨e, he, covers_iff.mpr (by omega)⟩
      have hfrom : replacesFrom x.span.start e = true := replacesFrom_iff.mpr (by omega)
      rw [inPlaces, inPlace_of_covered hcovered,
        a.applicable_references.filter_replacesFrom he hfrom]
      exact ⟨_, by rw [List.flatMap_singleton]⟩

/-- A statement keeps its last character if no reference ends there. -/
theorem getLast?_rewritten
    (a : Assembly target text options)
    {x : Item}
    (hx : x.Follows text.toList lo x.span.start)
    (hout : ∀ e ∈ a.references, e.span.stop < x.span.stop ∨ x.span.stop ≤ e.span.start) :
    (rewritten text a.references x).getLast? = (slice text x.span).toList.getLast? := by
  obtain ⟨hstart, hstop⟩ := hx.placed.wholeSpan
  obtain ⟨front, middle, back, htext, hfront, hmiddle⟩ :=
    Boundary.parts hstart hstop (Nat.le_of_lt hx.start_lt)
  have hslice : (slice text x.span).toList = middle := by
    have hslice := toList_slice htext
    rwa [hfront, hmiddle] at hslice
  rw [rewritten, spliced_of_filled fun e => a.filled_of_reference, hslice]
  rcases List.eq_nil_or_concat middle with rfl | ⟨cs, c, rfl⟩
  · rfl
  · rw [List.concat_eq_append] at htext hmiddle ⊢
    have huncovered : a.references.any (covers (x.span.start + byteLength cs)) = false := by
      rw [List.any_eq_false]
      intro e he hcovers
      rw [covers_iff, ← hfront, ← byteLength_append] at hcovers
      have hpos := c.utf8Size_pos
      have hcut : text.toList = (front ++ cs) ++ c :: back := by simp [htext]
      have hle := (a.applicable_references.whole e he).2.le_of_lt hcut hcovers.2
      rw [List.append_assoc, hmiddle] at hle
      rw [← List.append_assoc, byteLength_append, byteLength_cons] at hmiddle
      have := hout e he
      omega
    rw [inPlaces_append, inPlaces, inPlaces, inPlace_of_uncovered huncovered]
    simp

end Assembly

/-- The first character of the expression that reads an import. -/
def opening : ImportKind → Char
  | .default => '('
  | _ => '_'

theorem head?_renamed
    {program : Program}
    {catalog : Catalog}
    {w : Rewriting}
    (h : w ∈ rewritings program catalog)
    (hplain : w.occurrence.shorthand = false)
    (format : FormatOptions)
    (rest : List Char) :
    ((w.edit format).text.toList ++ rest).head? = some (opening w.entry.kind) := by
  obtain ⟨index, -, hhandle⟩ := Option.map_eq_some_iff.mp (mem_rewritings h).2.2
  simp only [Rewriting.edit, Edit.rename, renamed, hplain, Bool.false_eq_true, if_false]
  rw [← hhandle]
  cases w.entry.kind with
  | default => simp [accessExpression, opening, ToString.toString]
  | named name =>
      rw [accessExpression]
      split <;> simp [Catalog.handleName, opening, ToString.toString]
  | whole => simp [accessExpression, Catalog.handleName, opening, ToString.toString]

/-- The statement begins with a rewritten identifier, which reads an import of some kind. -/
def BeginsWith (ws : List Rewriting) (t : Item) (kind : ImportKind) : Prop :=
  ∃ w ∈ ws, w.occurrence.span.start = t.span.start ∧ w.occurrence.shorthand = false ∧
    w.entry.kind = kind

/-- What stands in the output where two statements become neighbours.  The rewritten statements are
separated by what remains of the text between them, which is space and comments.  The second one
begins as in the text, or with the expression that reads an import, and the first one ends as in
the text unless it ends with a rewritten identifier.  A parser that goes over the output reads no
operand that ends with the first one if the second one begins with a default import; if it begins
with another one, then with a word that is no operator. -/
structure Meet
    (text code : String)
    (format : FormatOptions)
    (ws : List Rewriting)
    (s : Item)
    (between : List Item)
    (t : Item)
    (front back : List Char) :
    Prop where
  written : code.toList =
    (front ++ rewritten text (ws.map (Rewriting.edit format)) s) ++
      (remains text s.span.stop between t.span.start ++
        (rewritten text (ws.map (Rewriting.edit format)) t ++ back))
  spaced : Spaced text.toList s.span.stop (between ++ [t]) t.span.stop
  begins : ∀ kind, BeginsWith ws t kind →
    (rewritten text (ws.map (Rewriting.edit format)) t).head? = some (opening kind)
  beginsAlike : (∀ w ∈ ws, w.occurrence.span.start ≠ t.span.start) →
    (rewritten text (ws.map (Rewriting.edit format)) t).head? = (slice text t.span).toList.head?
  endsAlike : (∀ w ∈ ws, w.occurrence.span.stop ≠ s.span.stop) →
    (rewritten text (ws.map (Rewriting.edit format)) s).getLast? =
      (slice text s.span).toList.getLast?
  goesOn : between = [] → BeginsWith ws t .default →
    ∀ depth c σ, σ.Good code.toList →
      Parser.Yields σ (Parser.operand (grammar depth) c) fun _ σ' =>
        σ'.lastEnd ≠ byteLength (front ++ rewritten text (ws.map (Rewriting.edit format)) s)
  stops : between = [] → ∀ kind, kind ≠ .default → BeginsWith ws t kind →
    ∀ σ : ParseState, σ.Good code.toList →
      σ.lastEnd = byteLength (front ++ rewritten text (ws.map (Rewriting.edit format)) s) →
        σ.token.kind = .word ∧ Parser.strength? σ.token = none

theorem strength?_of_underscore
    {t : Token}
    {letters : List Char}
    (hkind : t.kind = .word)
    (htext : t.text = String.ofList ('_' :: letters)) :
    Parser.strength? t = none := by
  have hne : ∀ word : String, word.toList.head? ≠ some '_' → (t.text == word) = false := by
    intro word hword
    rw [beq_eq_false_iff_ne]
    rintro rfl
    rw [htext, String.toList_ofList] at hword
    exact hword rfl
  rw [Parser.strength?, hkind]
  simp only [hne "in" (by decide), hne "instanceof" (by decide), Bool.or_false,
    Bool.false_eq_true, if_false]

/-- The text between two statements is passed as a gap wherever it stands. -/
theorem Around.skipped
    {text : String}
    {before behind : List Item}
    {s t : Item}
    {lo hi hi' last : Nat}
    (h : Around text.toList before s [] t behind lo hi hi' last) :
    ∃ found, ∀ begin other,
      skipGap .space false begin (remains text s.span.stop [] t.span.start ++ other) =
        skipGap .space found
          (begin + byteLength (remains text s.span.stop [] t.span.start)) other := by
  obtain rfl : s.span.stop = hi' := h.between
  have hlt := h.second.start_lt
  have hgap := h.second.gap
  have hstop := h.second.placed.wholeSpan.2.le_byteLength
  obtain ⟨front, gap, rest, htext, hfront, hmiddle⟩ :=
    Boundary.parts hgap.boundary.1 hgap.boundary.2 hgap.le
  cases rest with
  | nil =>
      rw [List.append_nil] at htext
      rw [htext, hmiddle] at hstop
      omega
  | cons c rest =>
      have hslice := toList_slice htext
      rw [hfront, hmiddle] at hslice
      rw [remains, hslice]
      exact hgap.skipped htext hfront hmiddle

theorem Assembly.meet
    {target : Target}
    {text : String}
    {options : TranspileOptions}
    {r : Rendered}
    {before between behind : List Item}
    {s t : Item}
    (a : Assembly target text options)
    (hr : a.Gives r)
    (h : Neighbours a.program.items before s between t behind) :
    ∃ front back,
      Meet text r.code options.format (rewritings a.program a.catalog) s between t front back := by
  obtain ⟨lo, hi, hi', last, haround⟩ := a.exists_around h
  have hslt := haround.first.start_lt
  have htlt := haround.second.start_lt
  have hgap := haround.stop_le_start
  have hplaces : ∀ e ∈ a.references, ∃ w ∈ rewritings a.program a.catalog,
      w.occurrence.span = e.span := by
    intro e he
    rw [a.references_eq] at he
    obtain ⟨w, hw, rfl⟩ := List.mem_map.mp he
    exact ⟨w, hw, rfl⟩
  have hbegins : ∀ kind, BeginsWith (rewritings a.program a.catalog) t kind →
      (rewritten text a.references t).head? = some (opening kind) := by
    rintro kind ⟨w, hw, hstart, hplain, rfl⟩
    have hmem : w.edit options.format ∈ a.references := a.references_eq ▸ List.mem_map_of_mem hw
    obtain ⟨rest, hrest⟩ := a.rewritten_of_reference haround.second hmem hstart
    rw [hrest, head?_renamed hw hplain]
  obtain ⟨front, back, hspliced⟩ := a.spliced_neighbours h
  have hcode : r.code.toList = (a.header.toList ++ front ++ rewritten text a.references s) ++
      (remains text s.span.stop between t.span.start ++
        (rewritten text a.references t ++ (back ++ a.footer.toList))) := by
    rw [hr.code, hspliced]
    simp only [List.append_assoc]
  have hnext : ∀ kind, BeginsWith (rewritings a.program a.catalog) t kind →
      ∃ rest, rewritten text a.references t = opening kind :: rest :=
    fun kind hkind => List.head?_eq_some_iff.mp (hbegins kind hkind)
  refine ⟨a.header.toList ++ front, back ++ a.footer.toList, ?_⟩
  refine ⟨?_, haround.between.snoc ⟨_, haround.second⟩, ?_, ?_, ?_, ?_, ?_⟩ <;>
    rw [← a.references_eq]
  · exact hcode
  · exact hbegins
  · intro hnone
    refine a.head?_rewritten fun e he => ?_
    obtain ⟨w, hw, hspan⟩ := hplaces e he
    have := hnone w hw
    have := a.reference_cases h haround he
    rw [hspan] at *
    omega
  · intro hnone
    refine a.getLast?_rewritten haround.first fun e he => ?_
    obtain ⟨w, hw, hspan⟩ := hplaces e he
    have := hnone w hw
    have := a.reference_cases h haround he
    rw [hspan] at *
    omega
  · rintro rfl hkind depth c σ hσ
    obtain ⟨rest, hrest⟩ := hnext _ hkind
    obtain ⟨found, hskip⟩ := haround.skipped
    rw [hrest] at hcode
    have hreads := (Parser.reads_operand (inOrder_grammar r.code.toList depth) c).step hσ
    refine ((Parser.operand_takes_calls (grammar depth) c σ).and hreads).mono ?_
    rintro _ σ' ⟨htoken, hstep⟩ hlast
    have hopening := hstep.good.at_opening hcode hlast.symm hskip
    rw [htoken] at hopening
    cases hopening
  · rintro rfl kind hother hkind σ hσ hlast
    obtain ⟨rest, hrest⟩ := hnext _ hkind
    obtain ⟨found, hskip⟩ := haround.skipped
    have hopening : opening kind = '_' := by
      cases kind with
      | default => exact absurd rfl hother
      | _ => rfl
    rw [hrest, hopening] at hcode
    obtain ⟨hword, letters, hletters⟩ := hσ.at_underscore hcode hlast.symm hskip
    exact ⟨hword, strength?_of_underscore hword hletters⟩

/-- A statement without a semicolon stands before an export and a reference to a default import. -/
def removedBetween : String :=
  "import x from 'x'\nvar a = 1\nexport \x7b a \x7d\nx()\n"

/-- The texts of the statements that the parser finds. -/
def statementTexts (code : String) : Option (List String) :=
  (Program.parse code).toOption.map fun p =>
    (p.directives ++ p.items.map Item.span).map (slice code)

/-- A statement without a semicolon stands before a reference to a default import. -/
def openStatement : String :=
  "import x from 'x'\nvar a = 1\nx()\n"

end Transpile
end EsModules
