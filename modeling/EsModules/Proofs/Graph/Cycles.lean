import EsModules.Proofs.Graph.ExecutionOrder
import Mathlib.Data.List.Chain

/-!
# Import cycles

The search for cycles keeps the modules that it has entered and not left on a stack, and notes a
cycle for each import that points into the stack.

**Sound.**  The stack is a chain of imports (`Stacked`), so the part of it that an import closes is
a cycle.

**Complete.**  As long as no cycle is noted, a module that the search has left imports only modules
that it has left before (`Clean`).  Such a module does not lead back to itself, although the search
may have come to it from an earlier entry.
-/

namespace EsModules
namespace Graph

open Relation

variable {g : Graph}

/-- Distinct modules that are reached from the entries, each of which imports the next one and the
last of which imports the first one. -/
def IsCycle (g : Graph) (ids : List ModuleId) : Prop :=
  ∃ first rest,
    ids.map g.module? = (first :: rest).map some ∧
    (first :: rest).Nodup ∧
    (∀ m ∈ first :: rest, g.Required m) ∧
    (first :: rest ++ [first]).IsChain g.DependsOn

/-- A cycle leads from its first module back to it. -/
theorem IsCycle.exists_transGen
    {ids : List ModuleId}
    (h : g.IsCycle ids) :
    ∃ m, g.Required m ∧ TransGen g.DependsOn m m := by
  obtain ⟨first, rest, -, -, hrequired, hchain⟩ := h
  have hreaches : (first :: (rest ++ [first])).IsChain (TransGen g.DependsOn) :=
    hchain.imp fun _ _ hedge => .single hedge
  exact ⟨first, hrequired first List.mem_cons_self, hreaches.rel_cons (by simp)⟩

/-- A module is required with what it imports. -/
theorem Required.tail
    {a b : GraphModule}
    (h : g.Required a)
    (hedge : g.DependsOn a b) :
    g.Required b := by
  obtain ⟨id, hid, entry, hentry, hneeds⟩ := h
  exact ⟨id, hid, entry, hentry, hneeds.tail hedge⟩

/-! ### Noted cycles -/

/-- The modules on the stack, innermost first: each is imported by the next one. -/
structure Stacked (g : Graph) (stack : List ModuleId) (path : List GraphModule) : Prop where
  known : stack.map g.module? = path.map some
  imported : path.IsChain fun a b => g.DependsOn b a
  nodup : path.Nodup
  required : ∀ m ∈ path, g.Required m

theorem stacked_nil (g : Graph) : g.Stacked [] [] :=
  ⟨rfl, .nil, .nil, by simp⟩

namespace Stacked

variable {stack : List ModuleId} {path : List GraphModule} {id : ModuleId} {root : GraphModule}

/-- An identity is on the stack if its module is. -/
theorem isAmong_iff
    (h : g.Stacked stack path)
    (hroot : g.module? id = some root) :
    id.isAmong stack = true ↔ root ∈ path := by
  rw [ModuleId.isAmong_iff]
  constructor
  · rintro ⟨other, hother, hsame⟩
    have hmem := List.mem_map_of_mem (f := g.module?) hother
    rw [h.known, ← module?_congr hsame, hroot] at hmem
    simpa using hmem
  · intro hmem
    have hmem := List.mem_map_of_mem (f := some) hmem
    rw [← h.known] at hmem
    obtain ⟨other, hother, hfound⟩ := List.mem_map.mp hmem
    refine ⟨other, hother, ?_⟩
    have hsame := same_of_module? hroot
    rw [ModuleId.same_iff] at hsame ⊢
    rw [← hsame]
    exact ModuleId.same_iff.mp (same_of_module? hfound)

theorem push
    (h : g.Stacked stack path)
    (hroot : g.module? id = some root)
    (hrequired : g.Required root)
    (himported : (root :: path).IsChain fun a b => g.DependsOn b a)
    (hnew : id.isAmong stack = false) :
    g.Stacked (id :: stack) (root :: path) where
  known := by rw [List.map_cons, List.map_cons, hroot, h.known]
  imported := himported
  nodup := by
    refine List.nodup_cons.mpr ⟨fun hmem => ?_, h.nodup⟩
    rw [(h.isAmong_iff hroot).mpr hmem] at hnew
    cases hnew
  required := List.forall_mem_cons.mpr ⟨hrequired, h.required⟩

/-- An import that points into the stack closes a cycle. -/
theorem isCycle
    (h : g.Stacked stack path)
    (hroot : g.module? id = some root)
    (himported : (root :: path).IsChain fun a b => g.DependsOn b a)
    (hid : id.isAmong stack = true) :
    g.IsCycle
      (stack.takeWhile (!·.same id) ++
        (stack.drop (stack.takeWhile (!·.same id)).length).take 1).reverse := by
  obtain ⟨start, hstart⟩ : ∃ start, stack.find? (·.same id) = some start := by
    obtain ⟨other, hother, hsame⟩ := ModuleId.isAmong_iff.mp hid
    rw [ModuleId.same_comm] at hsame
    exact Option.isSome_iff_exists.mp (List.find?_isSome.mpr ⟨other, hother, hsame⟩)
  obtain ⟨hsame, inner, outer, rfl, hinner⟩ := List.find?_eq_some_iff_append.mp hstart
  have htake : (inner ++ start :: outer).takeWhile (!·.same id) = inner := by
    rw [List.takeWhile_append_of_pos hinner, List.takeWhile_cons_of_neg (by simp [hsame]),
      List.append_nil]
  have hids : (inner ++ (List.drop inner.length (inner ++ start :: outer)).take 1).reverse =
      start :: inner.reverse := by
    simp
  rw [htake, hids]
  -- the module of `start` is the one that is imported
  have hknown := h.known
  rw [List.map_append, List.map_cons, module?_congr hsame, hroot] at hknown
  obtain ⟨before, behind, rfl, hbefore, hbehind⟩ := List.map_eq_append_iff.mp hknown.symm
  obtain ⟨first, rest, rfl, hfirst, -⟩ := List.map_eq_cons_iff.mp hbehind
  obtain rfl : first = root := Option.some.inj hfirst
  have hprefix : before ++ [first] <+: before ++ first :: rest := ⟨rest, by simp⟩
  refine ⟨first, before.reverse, ?_, ?_, ?_, ?_⟩
  · simp [module?_congr hsame, hroot, hbefore]
  · have hnodup := List.nodup_reverse.mpr (h.nodup.sublist hprefix.sublist)
    simpa using hnodup
  · intro m hm
    apply h.required
    simp only [List.mem_cons, List.mem_reverse] at hm
    simp only [List.mem_append, List.mem_cons]
    tauto
  · have hclosed : (first :: (before ++ [first])).IsChain fun a b => g.DependsOn b a :=
      himported.prefix (List.cons_prefix_cons.mpr ⟨rfl, hprefix⟩)
    have hturned := List.isChain_reverse.mpr hclosed
    simpa using hturned

end Stacked

/-- The search notes only cycles. -/
theorem isCycle_collectCycles
    (hlinked : ∀ m ∈ g.modules, ∀ link ∈ m.dependencies, ∃ d, g.module? link.2 = some d)
    {depth : Nat}
    {stack : List ModuleId}
    {path : List GraphModule}
    {search : CycleSearch}
    {id : ModuleId}
    {root : GraphModule}
    (hstack : g.Stacked stack path)
    (hroot : g.module? id = some root)
    (hrequired : g.Required root)
    (himported : (root :: path).IsChain fun a b => g.DependsOn b a)
    (hsearch : ∀ ids ∈ search.cycles, g.IsCycle ids) :
    ∀ ids ∈ (g.collectCycles depth stack search id).cycles, g.IsCycle ids := by
  induction depth generalizing stack path search id root with
  | zero => exact hsearch
  | succ depth ih =>
      rw [collectCycles]
      split
      · rename_i hid
        exact List.forall_mem_append.mpr
          ⟨hsearch, List.forall_mem_singleton.mpr (hstack.isCycle hroot himported hid)⟩
      · rename_i hid
        split
        · exact hsearch
        · have hpush := hstack.push hroot hrequired himported (by simpa using hid)
          refine List.foldlRecOn (motive := fun s : CycleSearch => ∀ ids ∈ s.cycles, g.IsCycle ids)
            _ _ hsearch ?_
          intro found hfound d hd
          obtain ⟨b, hb, hedge⟩ := exists_dependsOn hlinked hroot hd
          exact ih hpush hb (hrequired.tail hedge) (.cons_cons hedge himported) hfound

/-! ### Missed cycles -/

/-- A search goes on and forgets no module and no cycle. -/
structure CycleSearch.Extends (search search' : CycleSearch) : Prop where
  visited : ∀ id : ModuleId, id.isAmong search.visited = true → id.isAmong search'.visited = true
  cycles : search.cycles <+: search'.cycles

theorem CycleSearch.Extends.trans
    {search search' search'' : CycleSearch}
    (h : search.Extends search')
    (h' : search'.Extends search'') :
    search.Extends search'' :=
  ⟨fun id hid => h'.visited id (h.visited id hid), h.cycles.trans h'.cycles⟩

theorem CycleSearch.Extends.foldl
    {step : CycleSearch → ModuleId → CycleSearch}
    (hstep : ∀ (search : CycleSearch) (id : ModuleId), search.Extends (step search id))
    (ids : List ModuleId)
    (search : CycleSearch) :
    search.Extends (ids.foldl step search) := by
  induction ids generalizing search with
  | nil => exact ⟨fun _ h => h, List.prefix_refl _⟩
  | cons first rest ih => exact (hstep search first).trans (ih (step search first))

theorem extends_collectCycles
    (g : Graph)
    (depth : Nat)
    (stack : List ModuleId)
    (search : CycleSearch)
    (id : ModuleId) :
    search.Extends (g.collectCycles depth stack search id) := by
  induction depth generalizing stack search id with
  | zero => exact ⟨fun _ h => h, List.prefix_refl _⟩
  | succ depth ih =>
      rw [collectCycles]
      split
      · exact ⟨fun _ h => h, List.prefix_append _ _⟩
      · split
        · exact ⟨fun _ h => h, List.prefix_refl _⟩
        · refine CycleSearch.Extends.trans ?_ (.foldl (fun s d => ih (id :: stack) s d) _ _)
          refine ⟨fun other hother => ?_, List.prefix_refl _⟩
          rw [ModuleId.isAmong_cons, hother, Bool.or_true]

/-- The search has entered a module and left it. -/
structure Left (g : Graph) (stack : List ModuleId) (search : CycleSearch) (m : GraphModule) :
    Prop where
  known : g.module? m.id = some m
  entered : m.id.isAmong search.visited = true
  off : m.id.isAmong stack = false

/-- The modules that the search has left import only each other, and none leads back to itself. -/
structure Clean (g : Graph) (stack : List ModuleId) (search : CycleSearch) : Prop where
  closed : ∀ m d, g.Left stack search m → g.DependsOn m d → g.Left stack search d
  acyclic : ∀ m, g.Left stack search m → ¬TransGen g.DependsOn m m

theorem Clean.transGen
    {stack : List ModuleId}
    {search : CycleSearch}
    {a b : GraphModule}
    (h : g.Clean stack search)
    (ha : g.Left stack search a)
    (hedges : TransGen g.DependsOn a b) :
    g.Left stack search b := by
  induction hedges with
  | single hedge => exact h.closed _ _ ha hedge
  | tail _ hedge ih => exact h.closed _ _ ih hedge

section Visit

variable {depth : Nat} {stack : List ModuleId} {search : CycleSearch}
  {id : ModuleId} {root : GraphModule}

/-- Nothing is left when a module is entered. -/
theorem Clean.enter
    (h : g.Clean stack search)
    (hid : id.isAmong search.visited = false) :
    g.Clean (id :: stack) { search with visited := id :: search.visited } := by
  have hleft : ∀ m, g.Left (id :: stack) { search with visited := id :: search.visited } m ↔
      g.Left stack search m := by
    intro m
    constructor
    · rintro ⟨hknown, hentered, hoff⟩
      rw [ModuleId.isAmong_cons, Bool.or_eq_false_iff] at hoff
      rw [ModuleId.isAmong_cons, hoff.1, Bool.false_or] at hentered
      exact ⟨hknown, hentered, hoff.2⟩
    · rintro ⟨hknown, hentered, hoff⟩
      have hother : m.id.same id = false := by
        by_contra hsame
        rw [ModuleId.isAmong_congr (by simpa using hsame), hid] at hentered
        cases hentered
      exact ⟨hknown, by rw [ModuleId.isAmong_cons, hentered, Bool.or_true],
        by rw [ModuleId.isAmong_cons, hother, hoff]; rfl⟩
  constructor
  · intro m d hm hedge
    exact (hleft d).mpr (h.closed m d ((hleft m).mp hm) hedge)
  · intro m hm
    exact h.acyclic m ((hleft m).mp hm)

/-- A module is left once all that it imports is left.  It would lead back to itself by way of
these, which do not lead to anything on the stack. -/
theorem Clean.leave
    (h : g.Clean (id :: stack) search)
    (hroot : g.module? id = some root)
    (hentered : id.isAmong search.visited = true)
    (hoff : id.isAmong stack = false)
    (hdependencies : ∀ d, g.DependsOn root d → g.Left (id :: stack) search d) :
    g.Clean stack search ∧ g.Left stack search root := by
  have hsame := same_of_module? hroot
  have hleft : ∀ m, g.Left stack search m ↔ g.Left (id :: stack) search m ∨ m = root := by
    intro m
    constructor
    · rintro ⟨hknown, hentered, hoff⟩
      cases hcase : m.id.same id with
      | true =>
          rw [module?_congr hcase, hroot] at hknown
          exact .inr (Option.some.inj hknown).symm
      | false => exact .inl ⟨hknown, hentered, by rw [ModuleId.isAmong_cons, hcase, hoff]; rfl⟩
    · rintro (⟨hknown, hentered, hoff⟩ | rfl)
      · rw [ModuleId.isAmong_cons, Bool.or_eq_false_iff] at hoff
        exact ⟨hknown, hentered, hoff.2⟩
      · exact ⟨module?_id hroot, by rw [ModuleId.isAmong_congr hsame, hentered],
          by rw [ModuleId.isAmong_congr hsame, hoff]⟩
  have honStack : ¬g.Left (id :: stack) search root := by
    intro hroot
    have hoff := hroot.off
    rw [ModuleId.isAmong_cons, hsame] at hoff
    cases hoff
  refine ⟨⟨?_, ?_⟩, (hleft root).mpr (.inr rfl)⟩
  · intro m d hm hedge
    rcases (hleft m).mp hm with hm | rfl
    · exact (hleft d).mpr (.inl (h.closed m d hm hedge))
    · exact (hleft d).mpr (.inl (hdependencies d hedge))
  · intro m hm hcycle
    rcases (hleft m).mp hm with hm | rfl
    · exact h.acyclic m hm hcycle
    · obtain ⟨d, hedge, hneeds⟩ := TransGen.head'_iff.mp hcycle
      have hd := hdependencies d hedge
      rcases reflTransGen_iff_eq_or_transGen.mp hneeds with rfl | hneeds
      · exact honStack hd
      · exact honStack (h.transGen hd hneeds)

end Visit

/-- What a search from one module does that notes no cycle, at most `depth` modules deep. -/
def Searches (g : Graph) (depth : Nat) : Prop :=
  ∀ (stack : List ModuleId) (search : CycleSearch) (id : ModuleId) (root : GraphModule),
    g.module? id = some root →
    g.unseen search.visited < depth →
    g.Clean stack search →
    (g.collectCycles depth stack search id).cycles = [] →
    g.Clean stack (g.collectCycles depth stack search id) ∧
      g.Left stack (g.collectCycles depth stack search id) root

/-- Searches from several modules, one after the other. -/
theorem Searches.foldl
    {depth : Nat}
    (hsearches : g.Searches depth)
    (stack : List ModuleId)
    (ids : List ModuleId)
    (hids : ∀ id ∈ ids, ∃ root, g.module? id = some root)
    (search : CycleSearch)
    (hdepth : g.unseen search.visited < depth)
    (hclean : g.Clean stack search)
    (hnone : (ids.foldl (g.collectCycles depth stack) search).cycles = []) :
    g.Clean stack (ids.foldl (g.collectCycles depth stack) search) ∧
      ∀ id ∈ ids, ∀ root, g.module? id = some root →
        g.Left stack (ids.foldl (g.collectCycles depth stack) search) root := by
  induction ids generalizing search with
  | nil => exact ⟨hclean, by simp⟩
  | cons first rest ih =>
      obtain ⟨root, hroot⟩ := hids first List.mem_cons_self
      have hfirst := g.extends_collectCycles depth stack search first
      have hrest := CycleSearch.Extends.foldl (g.extends_collectCycles depth stack) rest
        (g.collectCycles depth stack search first)
      have hnoneFirst : (g.collectCycles depth stack search first).cycles = [] := by
        have hprefix := hrest.cycles
        rw [List.foldl_cons] at hnone
        rw [hnone] at hprefix
        exact List.prefix_nil.mp hprefix
      obtain ⟨hcleanFirst, hleft⟩ :=
        hsearches stack search first root hroot hdepth hclean hnoneFirst
      obtain ⟨hcleanRest, hleftRest⟩ := ih
        (fun id hid => hids id (List.mem_cons_of_mem _ hid))
        (g.collectCycles depth stack search first)
        (Nat.lt_of_le_of_lt (unseen_le hfirst.visited) hdepth)
        hcleanFirst
        hnone
      refine ⟨hcleanRest, ?_⟩
      intro id hid b hb
      rcases List.mem_cons.mp hid with rfl | hid
      · rw [hroot] at hb
        cases hb
        exact ⟨hleft.known, hrest.visited _ hleft.entered, hleft.off⟩
      · exact hleftRest id hid b hb

/-- A search that is deep enough and notes no cycle has left everything that it entered. -/
theorem searches
    (hlinked : ∀ m ∈ g.modules, ∀ link ∈ m.dependencies, ∃ d, g.module? link.2 = some d)
    (depth : Nat) :
    g.Searches depth := by
  induction depth with
  | zero =>
      intro stack search id root hroot hdepth
      exact absurd hdepth (Nat.not_lt_zero _)
  | succ depth ih =>
      intro stack search id root hroot hdepth hclean hnone
      have hsame := same_of_module? hroot
      rw [collectCycles] at hnone ⊢
      by_cases hstack : id.isAmong stack = true
      · rw [if_pos hstack] at hnone
        simp at hnone
      · have hoff : id.isAmong stack = false := by simpa using hstack
        rw [if_neg hstack] at hnone ⊢
        by_cases hvisited : id.isAmong search.visited = true
        · rw [if_pos hvisited]
          refine ⟨hclean, module?_id hroot, ?_, ?_⟩
          · rw [ModuleId.isAmong_congr hsame, hvisited]
          · rw [ModuleId.isAmong_congr hsame, hoff]
        · have hnew : id.isAmong search.visited = false := by simpa using hvisited
          rw [if_neg hvisited] at hnone ⊢
          obtain ⟨hcleanInner, hleft⟩ := ih.foldl (id :: stack) (g.dependencies id)
            (fun d hd => (exists_dependsOn hlinked hroot hd).imp fun _ hb => hb.1)
            { search with visited := id :: search.visited }
            (by have := unseen_cons_lt hroot hnew; simp only; omega)
            (hclean.enter hnew)
            hnone
          have hextends := CycleSearch.Extends.foldl (g.extends_collectCycles depth (id :: stack))
            (g.dependencies id) { search with visited := id :: search.visited }
          refine hcleanInner.leave hroot (hextends.visited id ?_) hoff ?_
          · rw [ModuleId.isAmong_cons, ModuleId.same_iff.mpr rfl, Bool.true_or]
          · intro d hd
            obtain ⟨target, htarget, hd⟩ := (dependsOn_iff hroot).mp hd
            exact hleft target htarget d hd

/-- Every cycle that is reported is one, and a cycle is reported if there is one. -/
theorem cycles_sound_complete (g : Graph) (hg : g.Reached) :
    (∀ ids ∈ g.cycles, g.IsCycle ids) ∧
      (g.cycles = [] ↔ ∀ m, g.Required m → ¬TransGen g.DependsOn m m) := by
  have hcoherent := hg.coherent
  have hsound : ∀ ids ∈ g.cycles, g.IsCycle ids := by
    refine List.foldlRecOn (motive := fun s : CycleSearch => ∀ ids ∈ s.cycles, g.IsCycle ids)
      _ _ (by simp) ?_
    intro search hsearch id hid
    obtain ⟨root, hroot⟩ := hcoherent.entered id hid
    exact isCycle_collectCycles hcoherent.linked g.stacked_nil hroot
      ⟨id, hid, root, hroot, .refl⟩ (.singleton root) hsearch
  refine ⟨hsound, ?_, ?_⟩
  · intro hnone m hm
    have hstart : g.Clean [] ⟨[], []⟩ :=
      ⟨fun m _ hm => absurd hm.entered Bool.false_ne_true,
        fun m hm => absurd hm.entered Bool.false_ne_true⟩
    obtain ⟨hclean, hentries⟩ := (searches hcoherent.linked (g.modules.length + 2)).foldl []
      g.entries hcoherent.entered ⟨[], []⟩
      (Nat.lt_succ_of_le (Nat.le_succ_of_le List.countP_le_length)) hstart hnone
    obtain ⟨id, hid, entry, hentry, hneeds⟩ := hm
    -- what is reached from an entry has been left with it
    apply hclean.acyclic
    induction hneeds with
    | refl => exact hentries id hid entry hentry
    | tail _ hedge ih => exact hclean.closed _ _ ih hedge
  · intro hacyclic
    rw [List.eq_nil_iff_forall_not_mem]
    intro ids hids
    obtain ⟨m, hm, hcycle⟩ := (hsound ids hids).exists_transGen
    exact hacyclic m hm hcycle

/-- A module that imports one of two modules that import each other; the other one of these imports
itself too. -/
def enteredCycle : Graph :=
  .empty "/p"
    (.ofTexts
      [("/p/main.js", "import './odd';\n"),
        ("/p/even.js", "import './odd';\nimport './even';\n"), ("/p/odd.js", "import './even';\n")])
    (Resolver.defaults [])

/-- Both cycles are found from the first entry, and none again from the second one. -/
theorem cycles_sound_complete_enteredCycle :
    ∃ g,
      g = after (addEntry "even") (after (addEntry "main") enteredCycle) ∧
      g.entries = [⟨"/p/main.js"⟩, ⟨"/p/even.js"⟩] ∧
      g.cycles = [[⟨"/p/odd.js"⟩, ⟨"/p/even.js"⟩], [⟨"/p/even.js"⟩]] ∧
      (∀ ids ∈ g.cycles, g.IsCycle ids) ∧
      ∃ m, g.Required m ∧ TransGen g.DependsOn m m := by
  have hread : (fun g : Graph => (g.entries, g.cycles))
      (after (addEntry "even") (after (addEntry "main") enteredCycle)) =
      ([⟨"/p/main.js"⟩, ⟨"/p/even.js"⟩],
        [[⟨"/p/odd.js"⟩, ⟨"/p/even.js"⟩], [⟨"/p/even.js"⟩]]) := by
    decide +kernel
  obtain ⟨hentries, hcycles⟩ := Prod.mk.inj hread
  obtain ⟨hsound, hcomplete⟩ :=
    cycles_sound_complete (after (addEntry "even") (after (addEntry "main") enteredCycle))
      (((Reached.empty _ _ _).addEntry "main").addEntry "even")
  refine ⟨_, rfl, hentries, hcycles, hsound, ?_⟩
  by_contra hnone
  push Not at hnone
  rw [hcomplete.mpr hnone] at hcycles
  cases hcycles

end Graph
end EsModules
