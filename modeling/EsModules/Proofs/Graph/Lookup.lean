import EsModules.Graph
import Mathlib.Data.List.Basic

/-!
# Modules by their identities

Identities are compared by the steps of their paths, so that a module is found under every spelling
of its path that has the same steps.
-/

namespace EsModules

namespace ModuleId

theorem same_iff {a b : ModuleId} :
    a.same b = true ↔ Path.components a.path = Path.components b.path :=
  beq_iff_eq

theorem same_comm (a b : ModuleId) : a.same b = b.same a :=
  Bool.eq_iff_iff.mpr (by rw [same_iff, same_iff, eq_comm])

theorem isAmong_cons (id first : ModuleId) (rest : List ModuleId) :
    id.isAmong (first :: rest) = (id.same first || id.isAmong rest) :=
  rfl

theorem isAmong_congr
    {a b : ModuleId}
    (h : a.same b = true)
    (ids : List ModuleId) :
    a.isAmong ids = b.isAmong ids := by
  have hsame : a.same = b.same := by
    funext other
    simp only [same, same_iff.mp h]
  simp only [isAmong, hsame]

theorem eq_of_ofPath
    {path : String}
    {id : ModuleId}
    (h : ofPath path = .ok id) :
    id = ⟨Path.clean path⟩ := by
  unfold ofPath at h
  split at h
  · cases h
  · split at h
    · cases h
    · cases h
      rfl

end ModuleId

namespace Graph

variable {g : Graph}

theorem same_of_module?
    {id : ModuleId}
    {m : GraphModule}
    (h : g.module? id = some m) :
    m.id.same id = true := by
  unfold module? at h
  have hsame := List.find?_some h
  exact hsame

theorem mem_of_module?
    {id : ModuleId}
    {m : GraphModule}
    (h : g.module? id = some m) :
    m ∈ g.modules :=
  List.mem_of_find?_eq_some h

theorem module?_congr
    {a b : ModuleId}
    (h : a.same b = true) :
    g.module? a = g.module? b := by
  simp only [module?, ModuleId.same, ModuleId.same_iff.mp h]

theorem module?_id
    {id : ModuleId}
    {m : GraphModule}
    (h : g.module? id = some m) :
    g.module? m.id = some m := by
  rw [module?_congr (same_of_module? h), h]

theorem module?_eq_none_iff
    {id : ModuleId} :
    g.module? id = none ↔ ∀ m ∈ g.modules, m.id.same id = false := by
  unfold module?
  rw [List.find?_eq_none]
  simp

theorem exists_module?_iff
    {id : ModuleId} :
    (∃ m, g.module? id = some m) ↔ ∃ m ∈ g.modules, m.id.same id = true := by
  constructor
  · rintro ⟨m, hm⟩
    exact ⟨m, mem_of_module? hm, same_of_module? hm⟩
  · rintro ⟨m, hm, hsame⟩
    cases hfound : g.module? id with
    | some found => exact ⟨found, rfl⟩
    | none =>
        rw [module?_eq_none_iff.mp hfound m hm] at hsame
        cases hsame

/-- Where no identity is lost, a module is still found. -/
theorem exists_module?_of_ids
    {g g' : Graph}
    {id : ModuleId}
    {m : GraphModule}
    (hids : ∀ a ∈ g.modules, ∃ b ∈ g'.modules, b.id = a.id)
    (h : g.module? id = some m) :
    ∃ m', g'.module? id = some m' := by
  obtain ⟨b, hb, hid⟩ := hids m (mem_of_module? h)
  refine exists_module?_iff.mpr ⟨b, hb, ?_⟩
  rw [hid]
  exact same_of_module? h

/-- Fewer elements are counted if one of them is not counted any more. -/
theorem countP_lt_countP
    {α : Type}
    {p q : α → Bool}
    {elements : List α}
    {a : α}
    (h : ∀ b, q b = true → p b = true)
    (ha : a ∈ elements)
    (hp : p a = true)
    (hq : q a = false) :
    elements.countP q < elements.countP p := by
  obtain ⟨front, back, rfl⟩ := List.append_of_mem ha
  have hfront : front.countP q ≤ front.countP p := List.countP_mono_left fun b _ => h b
  have hback : back.countP q ≤ back.countP p := List.countP_mono_left fun b _ => h b
  rw [List.countP_append, List.countP_append, List.countP_cons, List.countP_cons, hp, hq]
  simp only [if_true, Bool.false_eq_true, if_false]
  omega

/-- The number of modules that have not been entered. -/
def unseen (g : Graph) (visited : List ModuleId) : Nat :=
  g.modules.countP fun m => !m.id.isAmong visited

theorem unseen_le
    {first second : List ModuleId}
    (h : ∀ id : ModuleId, id.isAmong first = true → id.isAmong second = true) :
    g.unseen second ≤ g.unseen first := by
  apply List.countP_mono_left
  intro m _ hm
  by_contra hfirst
  rw [h m.id (by simpa using hfirst)] at hm
  cases hm

theorem unseen_cons_lt
    {visited : List ModuleId}
    {id : ModuleId}
    {root : GraphModule}
    (hroot : g.module? id = some root)
    (hid : id.isAmong visited = false) :
    g.unseen (id :: visited) < g.unseen visited := by
  have hsame := same_of_module? hroot
  apply countP_lt_countP _ (mem_of_module? hroot)
  · rw [ModuleId.isAmong_congr hsame, hid]
    rfl
  · rw [ModuleId.isAmong_cons, hsame]
    rfl
  · intro m hm
    rw [ModuleId.isAmong_cons] at hm
    simp_all

end Graph
end EsModules
