import EsModules.Graph.Order
import EsModules.Proofs.Graph.Coherence
import Mathlib.Data.List.Forall2
import Mathlib.Data.List.Nodup

/-!
# Execution order

The walk enters the modules depth first and lists each one when it is done with its dependencies.
A module that has been entered and is not listed yet leads to the one that is entered next.  So a
dependency that is not listed before its importer leads back to it.
-/

namespace EsModules

namespace ModuleId

theorem isAmong_iff {id : ModuleId} {ids : List ModuleId} :
    id.isAmong ids = true ↔ ∃ other ∈ ids, id.same other = true :=
  List.any_eq_true

theorem isAmong_append (id : ModuleId) (as bs : List ModuleId) :
    id.isAmong (as ++ bs) = (id.isAmong as || id.isAmong bs) :=
  List.any_append

section Distinct

variable {id : ModuleId}

/-- One step of the loop that keeps the first of the same identities. -/
theorem mem_of_mem_keep
    {first : ModuleId}
    {kept : List ModuleId}
    (h : id ∈ if first.isAmong kept then kept else first :: kept) :
    id ∈ kept ∨ id = first := by
  split at h
  · exact .inl h
  · exact (List.mem_cons.mp h).symm

theorem isAmong_keep {first : ModuleId} {kept : List ModuleId} :
    id.isAmong (if first.isAmong kept then kept else first :: kept) =
      (id.isAmong kept || id.same first) := by
  split
  · rename_i hfirst
    by_cases hsame : id.same first
    · rw [isAmong_congr hsame, hfirst, Bool.true_or]
    · rw [Bool.eq_false_iff.mpr hsame, Bool.or_false]
  · rw [isAmong_cons, Bool.or_comm]

/-- The loop keeps nothing but what it is given. -/
theorem mem_of_mem_foldl_keep
    {ids kept : List ModuleId}
    (h : id ∈ ids.foldl (fun kept id => if id.isAmong kept then kept else id :: kept) kept) :
    id ∈ kept ∨ id ∈ ids := by
  induction ids generalizing kept with
  | nil => exact .inl h
  | cons first rest ih =>
      rw [List.mem_cons, ← or_assoc]
      exact (ih h).imp_left mem_of_mem_keep

/-- The loop loses nothing. -/
theorem isAmong_foldl_keep (ids kept : List ModuleId) :
    id.isAmong (ids.foldl (fun kept id => if id.isAmong kept then kept else id :: kept) kept) =
      (id.isAmong kept || id.isAmong ids) := by
  induction ids generalizing kept with
  | nil => exact (Bool.or_false _).symm
  | cons first rest ih =>
      rw [List.foldl_cons, ih, isAmong_keep, isAmong_cons, Bool.or_assoc]

theorem mem_distinct {ids : List ModuleId} (h : id ∈ distinct ids) : id ∈ ids :=
  (mem_of_mem_foldl_keep (List.mem_reverse.mp h)).resolve_left (List.not_mem_nil)

/-- No identity is lost when only the first of the same ones are kept. -/
theorem isAmong_distinct_of_mem {ids : List ModuleId} (h : id ∈ ids) :
    id.isAmong (distinct ids) = true := by
  have hamong : id.isAmong ids = true := isAmong_iff.mpr ⟨id, h, same_iff.mpr rfl⟩
  unfold distinct isAmong
  rw [List.any_reverse]
  exact (isAmong_foldl_keep ids []).trans hamong

end Distinct

end ModuleId

namespace Graph

variable {g : Graph}

/-- A module imports another one. -/
def DependsOn (g : Graph) (a b : GraphModule) : Prop :=
  ∃ link ∈ a.dependencies, g.module? link.2 = some b

/-- A module is reached from another one along dependencies. -/
def Needs (g : Graph) (a b : GraphModule) : Prop :=
  Relation.ReflTransGen g.DependsOn a b

/-- A module is reached from an entry. -/
def Required (g : Graph) (m : GraphModule) : Prop :=
  ∃ id ∈ g.entries, ∃ a, g.module? id = some a ∧ g.Needs a m

theorem DependsOn.known {a b : GraphModule} (h : g.DependsOn a b) : g.module? b.id = some b := by
  obtain ⟨link, -, hb⟩ := h
  exact module?_id hb

/-- What is listed as dependencies of an identity are the dependencies of its module. -/
theorem dependsOn_iff
    {id : ModuleId}
    {a b : GraphModule}
    (ha : g.module? id = some a) :
    g.DependsOn a b ↔ ∃ d ∈ g.dependencies id, g.module? d = some b := by
  have hlist : g.dependencies id = ModuleId.distinct (a.dependencies.map (·.2)) := by
    unfold dependencies
    rw [ha]
  rw [hlist]
  constructor
  · rintro ⟨link, hlink, hb⟩
    obtain ⟨d, hd, hsame⟩ := ModuleId.isAmong_iff.mp
      (ModuleId.isAmong_distinct_of_mem (List.mem_map_of_mem (f := (·.2)) hlink))
    refine ⟨d, hd, ?_⟩
    rw [← module?_congr hsame]
    exact hb
  · rintro ⟨d, hd, hb⟩
    obtain ⟨link, hlink, rfl⟩ := List.mem_map.mp (ModuleId.mem_distinct hd)
    exact ⟨link, hlink, hb⟩

/-- The identities of what a module imports have modules. -/
theorem exists_dependsOn
    (hlinked : ∀ m ∈ g.modules, ∀ link ∈ m.dependencies, ∃ d, g.module? link.2 = some d)
    {id d : ModuleId}
    {root : GraphModule}
    (hroot : g.module? id = some root)
    (hd : d ∈ g.dependencies id) :
    ∃ b, g.module? d = some b ∧ g.DependsOn root b := by
  obtain ⟨b, hb⟩ : ∃ b, g.module? d = some b := by
    unfold dependencies at hd
    rw [hroot] at hd
    obtain ⟨link, hlink, rfl⟩ := List.mem_map.mp (ModuleId.mem_distinct hd)
    exact hlinked root (mem_of_module? hroot) link hlink
  exact ⟨b, hb, (dependsOn_iff hroot).mpr ⟨d, hd, hb⟩⟩

/-! ### Walks -/

/-- A module has been entered. -/
def Walk.Seen (walk : Walk) (m : GraphModule) : Prop :=
  m.id.isAmong walk.visited = true

/-- A module is listed. -/
def Walk.Done (walk : Walk) (m : GraphModule) : Prop :=
  m.id.isAmong walk.order = true

/-- The modules that have been entered are listed or under way. -/
def Pending (g : Graph) (walk : Walk) (underWay : GraphModule → Prop) : Prop :=
  ∀ m, g.module? m.id = some m → walk.Seen m → walk.Done m ∨ underWay m

/-- A walk goes on, and enters and lists the modules `new`, the last one first.  They all are
`within` some modules. -/
structure Explores
    (g : Graph)
    (within : GraphModule → Prop)
    (walk : Walk)
    (new : List GraphModule)
    (walk' : Walk) :
    Prop where
  order :
    ∃ ids, walk'.order = ids ++ walk.order ∧
      List.Forall₂ (fun id m => g.module? id = some m) ids new
  seen : ∀ m, g.module? m.id = some m → (walk'.Seen m ↔ walk.Seen m ∨ m ∈ new)
  fresh : ∀ m ∈ new, ¬walk.Seen m
  nodup : new.Nodup
  reached : ∀ m ∈ new, within m
  closed : ∀ m ∈ new, ∀ d, g.DependsOn m d → walk'.Seen d
  behind :
    ∀ later m earlier, new = later ++ m :: earlier →
      ∀ d, g.DependsOn m d → d ∈ earlier ∨ walk.Done d ∨ g.Needs d m

namespace Explores

variable {within : GraphModule → Prop} {walk walk' walk'' : Walk} {new more : List GraphModule}

theorem nil (g : Graph) (within : GraphModule → Prop) (walk : Walk) :
    g.Explores within walk [] walk where
  order := ⟨[], rfl, .nil⟩
  seen := by simp
  fresh := by simp
  nodup := .nil
  reached := by simp
  closed := by simp
  behind := by simp

theorem known (h : g.Explores within walk new walk') : ∀ m ∈ new, g.module? m.id = some m := by
  obtain ⟨ids, -, hids⟩ := h.order
  clear h
  induction hids with
  | nil => simp
  | cons hm _ ih =>
      intro m hmem
      rcases List.mem_cons.mp hmem with rfl | hmem
      · exact module?_id hm
      · exact ih m hmem

theorem done_iff
    (h : g.Explores within walk new walk')
    {m : GraphModule}
    (hm : g.module? m.id = some m) :
    walk'.Done m ↔ walk.Done m ∨ m ∈ new := by
  obtain ⟨ids, horder, hids⟩ := h.order
  have hnew : m.id.isAmong ids = true ↔ m ∈ new := by
    clear horder h
    induction hids with
    | nil => simp [ModuleId.isAmong]
    | @cons id first ids rest hfirst _ ih =>
        rw [ModuleId.isAmong_cons, Bool.or_eq_true, ih, List.mem_cons]
        apply or_congr_left
        constructor
        · intro hsame
          rw [module?_congr hsame, hfirst] at hm
          cases hm
          rfl
        · rintro rfl
          exact same_of_module? hfirst
  unfold Walk.Done
  rw [horder, ModuleId.isAmong_append, Bool.or_eq_true, hnew, or_comm]

theorem mono
    {wider : GraphModule → Prop}
    (h : g.Explores within walk new walk')
    (hwider : ∀ m, within m → wider m) :
    g.Explores wider walk new walk' where
  order := h.order
  seen := h.seen
  fresh := h.fresh
  nodup := h.nodup
  reached := fun m hm => hwider m (h.reached m hm)
  closed := h.closed
  behind := h.behind

/-- Walks one after the other. -/
theorem append
    (h : g.Explores within walk new walk')
    (h' : g.Explores within walk' more walk'') :
    g.Explores within walk (more ++ new) walk'' where
  order := by
    obtain ⟨ids, horder, hids⟩ := h.order
    obtain ⟨ids', horder', hids'⟩ := h'.order
    refine ⟨ids' ++ ids, ?_, List.rel_append hids' hids⟩
    rw [horder', horder, List.append_assoc]
  seen := by
    intro m hm
    rw [h'.seen m hm, h.seen m hm, List.mem_append]
    tauto
  fresh := by
    intro m hm
    rcases List.mem_append.mp hm with hm | hm
    · intro hseen
      exact h'.fresh m hm ((h.seen m (h'.known m hm)).mpr (.inl hseen))
    · exact h.fresh m hm
  nodup := by
    apply List.nodup_append.mpr
    refine ⟨h'.nodup, h.nodup, ?_⟩
    rintro m hm _ hm' rfl
    exact h'.fresh m hm ((h.seen m (h.known m hm')).mpr (.inr hm'))
  reached := by
    intro m hm
    rcases List.mem_append.mp hm with hm | hm
    · exact h'.reached m hm
    · exact h.reached m hm
  closed := by
    intro m hm d hd
    rcases List.mem_append.mp hm with hm | hm
    · exact h'.closed m hm d hd
    · exact (h'.seen d hd.known).mpr (.inl (h.closed m hm d hd))
  behind := by
    intro later m earlier hsplit d hd
    rcases List.append_eq_append_iff.mp hsplit with ⟨middle, -, hnew⟩ | ⟨middle, hmore, hnew⟩
    · exact h.behind middle m earlier hnew d hd
    · cases middle with
      | nil => exact h.behind [] m earlier hnew.symm d hd
      | cons first middle =>
          obtain ⟨rfl, rfl⟩ := List.cons_eq_cons.mp hnew
          rcases h'.behind later m middle hmore d hd with hd' | hd' | hd'
          · exact .inl (List.mem_append_left _ hd')
          · rcases (h.done_iff hd.known).mp hd' with hdone | hmem
            · exact .inr (.inl hdone)
            · exact .inl (List.mem_append_right _ hmem)
          · exact .inr (.inr hd')

theorem unseen_le (h : g.Explores within walk new walk') :
    g.unseen walk'.visited ≤ g.unseen walk.visited := by
  apply List.countP_mono_left
  intro a ha hunseen
  obtain ⟨m, hm⟩ := exists_module?_iff.mpr ⟨a, ha, ModuleId.same_iff.mpr rfl⟩
  have hgrows := (h.seen m (module?_id hm)).mpr ∘ Or.inl
  unfold Walk.Seen at hgrows
  rw [ModuleId.isAmong_congr (same_of_module? hm),
    ModuleId.isAmong_congr (same_of_module? hm)] at hgrows
  by_contra hseen
  rw [hgrows (by simpa using hseen)] at hunseen
  cases hunseen

/-- What is under way when the walk goes on is still under way when it comes back. -/
theorem pending
    {underWay : GraphModule → Prop}
    (h : g.Explores within walk new walk')
    (hpending : g.Pending walk underWay) :
    g.Pending walk' underWay := by
  intro m hm hseen
  rw [h.done_iff hm]
  rcases (h.seen m hm).mp hseen with hseen | hnew
  · rcases hpending m hm hseen with hdone | hunder
    · exact .inl (.inl hdone)
    · exact .inr hunder
  · exact .inl (.inr hnew)

/-- The module that is entered comes behind all that is entered from it. -/
theorem finish
    {id : ModuleId}
    {root : GraphModule}
    (hroot : g.module? id = some root)
    (hid : id.isAmong walk.visited = false)
    (hpending : g.Pending walk (g.Needs · root))
    (h : g.Explores (g.Needs root) ⟨id :: walk.visited, walk.order⟩ new walk')
    (hdone : ∀ d, g.DependsOn root d → walk'.Seen d) :
    g.Explores (g.Needs root) walk (root :: new) ⟨walk'.visited, id :: walk'.order⟩ := by
  have hentered : ∀ m, g.module? m.id = some m →
      (Walk.Seen ⟨id :: walk.visited, walk.order⟩ m ↔ m = root ∨ walk.Seen m) := by
    intro m hm
    unfold Walk.Seen
    rw [ModuleId.isAmong_cons, Bool.or_eq_true]
    apply or_congr_left
    constructor
    · intro hsame
      rw [module?_congr hsame, hroot] at hm
      cases hm
      rfl
    · rintro rfl
      exact same_of_module? hroot
  have hnew : ∀ m ∈ new, m ≠ root ∧ ¬walk.Seen m := by
    intro m hm
    have hfresh := h.fresh m hm
    rw [hentered m (h.known m hm)] at hfresh
    exact not_or.mp hfresh
  constructor
  case order =>
    obtain ⟨ids, horder, hids⟩ := h.order
    refine ⟨id :: ids, ?_, .cons hroot hids⟩
    simp only [horder, List.cons_append]
  case seen =>
    intro m hm
    have hseen := h.seen m hm
    rw [hentered m hm] at hseen
    rw [List.mem_cons]
    exact hseen.trans (by tauto)
  case fresh =>
    intro m hm
    rcases List.mem_cons.mp hm with rfl | hm
    · unfold Walk.Seen
      rw [ModuleId.isAmong_congr (same_of_module? hroot), hid]
      exact Bool.false_ne_true
    · exact (hnew m hm).2
  case nodup =>
    apply List.nodup_cons.mpr
    exact ⟨fun hm => (hnew root hm).1 rfl, h.nodup⟩
  case reached =>
    intro m hm
    rcases List.mem_cons.mp hm with rfl | hm
    · exact .refl
    · exact h.reached m hm
  case closed =>
    intro m hm d hd
    rcases List.mem_cons.mp hm with rfl | hm
    · exact hdone d hd
    · exact h.closed m hm d hd
  case behind =>
    intro later m earlier hsplit d hd
    cases later with
    | nil =>
        obtain ⟨rfl, rfl⟩ := List.cons_eq_cons.mp hsplit
        have hseen := (h.seen d hd.known).mp (hdone d hd)
        rw [hentered d hd.known] at hseen
        rcases hseen with (rfl | hseen) | hmem
        · exact .inr (.inr .refl)
        · exact .inr (hpending d hd.known hseen)
        · exact .inl hmem
    | cons first later =>
        obtain ⟨-, hnew⟩ := List.cons_eq_cons.mp hsplit
        exact h.behind later m earlier hnew d hd

end Explores

/-- What a visit of one module does, for visits at most `depth` modules deep. -/
def Visits (g : Graph) (depth : Nat) : Prop :=
  ∀ (walk : Walk) (id : ModuleId) (root : GraphModule),
    g.module? id = some root →
    g.unseen walk.visited < depth →
    g.Pending walk (g.Needs · root) →
    ∃ new, g.Explores (g.Needs root) walk new (g.visitPostOrder depth walk id) ∧
      (g.visitPostOrder depth walk id).Seen root

/-- Visits one after the other, each of a module that what is under way leads to. -/
theorem Visits.foldl
    {depth : Nat}
    {underWay within : GraphModule → Prop}
    (hvisits : g.Visits depth)
    (ids : List ModuleId)
    (hids : ∀ id ∈ ids, ∃ root, g.module? id = some root ∧
      (∀ m, underWay m → g.Needs m root) ∧ ∀ m, g.Needs root m → within m)
    (walk : Walk)
    (hdepth : g.unseen walk.visited < depth)
    (hpending : g.Pending walk underWay) :
    ∃ new, g.Explores within walk new (ids.foldl (g.visitPostOrder depth) walk) ∧
      ∀ id ∈ ids, ∀ root, g.module? id = some root →
        (ids.foldl (g.visitPostOrder depth) walk).Seen root := by
  induction ids generalizing walk with
  | nil => exact ⟨[], Explores.nil g within walk, by simp⟩
  | cons first rest ih =>
      obtain ⟨root, hroot, hunder, hwithin⟩ := hids first List.mem_cons_self
      have hpendingRoot : g.Pending walk (g.Needs · root) := by
        intro m hm hseen
        exact (hpending m hm hseen).imp_right (hunder m)
      obtain ⟨new, hnew, hseen⟩ := hvisits walk first root hroot hdepth hpendingRoot
      obtain ⟨more, hmore, hrest⟩ := ih
        (fun id hid => hids id (List.mem_cons_of_mem _ hid))
        (g.visitPostOrder depth walk first)
        (Nat.lt_of_le_of_lt hnew.unseen_le hdepth)
        (hnew.pending hpending)
      refine ⟨more ++ new, (hnew.mono hwithin).append hmore, ?_⟩
      intro id hid b hb
      rcases List.mem_cons.mp hid with rfl | hid
      · rw [hroot] at hb
        cases hb
        exact (hmore.seen root (module?_id hroot)).mpr (.inl hseen)
      · exact hrest id hid b hb

/-- In a graph all of whose dependencies are there, visits that are deep enough do not miss
anything. -/
theorem visits
    (hlinked : ∀ m ∈ g.modules, ∀ link ∈ m.dependencies, ∃ d, g.module? link.2 = some d)
    (depth : Nat) :
    g.Visits depth := by
  induction depth with
  | zero =>
      intro walk id root hroot hdepth
      exact absurd hdepth (Nat.not_lt_zero _)
  | succ depth ih =>
      intro walk id root hroot hdepth hpending
      rw [visitPostOrder]
      split
      · rename_i hid
        refine ⟨[], Explores.nil g _ walk, ?_⟩
        unfold Walk.Seen
        rw [ModuleId.isAmong_congr (same_of_module? hroot), hid]
      · rename_i hid
        have hid : id.isAmong walk.visited = false := by simpa using hid
        have hdependencies : ∀ d ∈ g.dependencies id, ∃ b, g.module? d = some b ∧
            (∀ m, g.Needs m root → g.Needs m b) ∧ ∀ m, g.Needs b m → g.Needs root m := by
          intro d hd
          obtain ⟨b, hb, hedge⟩ := exists_dependsOn hlinked hroot hd
          exact ⟨b, hb, fun m hm => hm.tail hedge, fun m hm => hm.head hedge⟩
        have hpendingEntered :
            g.Pending ⟨id :: walk.visited, walk.order⟩ (g.Needs · root) := by
          intro m hm hseen
          unfold Walk.Seen at hseen
          rw [ModuleId.isAmong_cons, Bool.or_eq_true] at hseen
          rcases hseen with hsame | hseen
          · rw [module?_congr hsame, hroot] at hm
            cases hm
            exact .inr .refl
          · exact hpending m hm hseen
        obtain ⟨new, hnew, hseen⟩ := ih.foldl (g.dependencies id) hdependencies
          ⟨id :: walk.visited, walk.order⟩
          (by have := unseen_cons_lt hroot hid; simp only; omega)
          hpendingEntered
        have hfinish := hnew.finish hroot hid hpending (by
          intro d hd
          obtain ⟨target, htarget, hd⟩ := (dependsOn_iff hroot).mp hd
          exact hseen target htarget d hd)
        refine ⟨root :: new, hfinish, ?_⟩
        exact (hfinish.seen root (module?_id hroot)).mpr (.inr List.mem_cons_self)

/-- The walk from the entries, module by module: those that it lists are the ones that are reached
from the entries, each once and behind each of its dependencies that does not lead back to it. -/
theorem Coherent.exists_order (hg : g.Coherent) :
    ∃ order : List GraphModule,
      List.Forall₂ (fun id m => g.module? id = some m) g.executionOrder order ∧
      order.Nodup ∧
      (∀ m, m ∈ order ↔ g.Required m) ∧
      ∀ front m back, order = front ++ m :: back →
        ∀ d, g.DependsOn m d → d ∈ front ∨ g.Needs d m := by
  have hempty : ∀ m, ¬Walk.Seen ⟨[], []⟩ m := by
    intro m
    exact Bool.false_ne_true
  have hentries : ∀ id ∈ g.entries, ∃ root, g.module? id = some root ∧
      (∀ m, False → g.Needs m root) ∧ ∀ m, g.Needs root m → g.Required m := by
    intro id hid
    obtain ⟨root, hroot⟩ := hg.entered id hid
    exact ⟨root, hroot, fun _ h => h.elim, fun m hm => ⟨id, hid, root, hroot, hm⟩⟩
  obtain ⟨new, hnew, hseen⟩ := (visits hg.linked (g.modules.length + 1)).foldl
    g.entries hentries ⟨[], []⟩
    (Nat.lt_succ_of_le List.countP_le_length)
    (fun m _ hm => absurd hm (hempty m))
  have hmem : ∀ m, g.module? m.id = some m →
      ((g.entries.foldl (g.visitPostOrder (g.modules.length + 1)) ⟨[], []⟩).Seen m ↔ m ∈ new) := by
    intro m hm
    rw [hnew.seen m hm]
    exact or_iff_right (hempty m)
  refine ⟨new.reverse, ?_, List.nodup_reverse.mpr hnew.nodup, ?_, ?_⟩
  · obtain ⟨ids, horder, hids⟩ := hnew.order
    unfold executionOrder
    rw [horder, List.append_nil]
    exact List.rel_reverse hids
  · intro m
    rw [List.mem_reverse]
    constructor
    · exact hnew.reached m
    · -- an entry has been entered, and with a module its dependencies
      rintro ⟨id, hid, a, ha, hneeds⟩
      induction hneeds with
      | refl => exact (hmem a (module?_id ha)).mp (hseen id hid a ha)
      | tail _ hedge ih => exact (hmem _ hedge.known).mp (hnew.closed _ ih _ hedge)
  · intro front m back hsplit d hd
    have hsplit : new = back.reverse ++ m :: front.reverse := by
      rw [← List.reverse_reverse new, hsplit]
      simp
    rcases hnew.behind _ m _ hsplit d hd with hfront | hdone | hneeds
    · exact .inl (List.mem_reverse.mp hfront)
    · exact absurd hdone Bool.false_ne_true
    · exact .inr hneeds

/-- The execution order lists the modules that are reached from the entries, each once.  A module
comes behind each of its dependencies that does not lead back to it. -/
theorem executionOrder_required (g : Graph) (hg : g.Reached) :
    ∃ order : List GraphModule,
      g.executionOrder.map g.module? = order.map some ∧
      order.Nodup ∧
      (∀ m, m ∈ order ↔ g.Required m) ∧
      ∀ front m back, order = front ++ m :: back →
        ∀ d, g.DependsOn m d → d ∈ front ∨ g.Needs d m := by
  obtain ⟨order, hids, hfacts⟩ := hg.coherent.exists_order
  refine ⟨order, ?_, hfacts⟩
  rw [← List.forall₂_eq_eq_eq, List.forall₂_map_left_iff, List.forall₂_map_right_iff]
  exact hids

/-- Two modules that import each other; the entry imports itself too. -/
def evenOdd : Graph :=
  .empty "/p"
    (.ofTexts
      [("/p/even.js", "import './odd';\nimport './even';\n"), ("/p/odd.js", "import './even';\n")])
    (Resolver.defaults [])

theorem executionOrder_required_evenOdd :
    ∃ g order,
      g = after (addEntry "even") evenOdd ∧
      g.executionOrder = [⟨"/p/odd.js"⟩, ⟨"/p/even.js"⟩] ∧
      g.executionOrder.map g.module? = order.map some ∧
      (∀ m, m ∈ order ↔ g.Required m) ∧
      ∀ front m back, order = front ++ m :: back →
        ∀ d, g.DependsOn m d → d ∈ front ∨ g.Needs d m := by
  obtain ⟨order, horder, -, hmem, hbehind⟩ :=
    executionOrder_required (after (addEntry "even") evenOdd)
      ((Reached.empty _ _ _).addEntry "even")
  exact ⟨_, order, rfl, by decide +kernel, horder, hmem, hbehind⟩

end Graph
end EsModules
