import EsModules.Proofs.Scope.Lexical
import Mathlib.Data.List.Find
import Mathlib.Data.List.Forall2
import Mathlib.Tactic.Common

/-!
# The scope table and lexical scoping

What a table holds once code has been entered in it: its scopes lie in one another (`Nested`), each
holds the names that lexical scoping gives it, and the references are the occurrences of the code,
each inside the scopes that stand around it.

The work is in `Entered`, which says what a piece of code makes of a table.  It composes along the
code (`Entered.append`) and through a construct that opens a scope (`Entered.scope`).
-/

namespace EsModules

theorem exists_of_forall₂
    {α β : Type}
    {R : α → β → Prop}
    {l : List α}
    {l' : List β}
    (h : List.Forall₂ R l l')
    {x : α}
    (hx : x ∈ l) :
    ∃ y ∈ l', R x y := by
  obtain ⟨hlength, hall⟩ := List.forall₂_iff_get.mp h
  obtain ⟨n, hn, rfl⟩ := List.getElem_of_mem hx
  exact ⟨_, List.getElem_mem (hlength ▸ hn), hall n hn (hlength ▸ hn)⟩

namespace ScopeTable

open Syntax

/-- The names of a scope, none if there is no such scope. -/
def namesAt (t : ScopeTable) (id : Nat) : List String :=
  (t.scopes[id]?.map (·.names)).getD []

/-- Scope 0 is the module; every other scope lies in an earlier one and is one level deeper. -/
structure Nested (t : ScopeTable) : Prop where
  root : ∃ s, t.scopes[0]? = some s ∧ s.parent = none ∧ s.kind = .module ∧ s.depth = 0
  inner :
    ∀ id s, t.scopes[id]? = some s → id ≠ 0 →
      ∃ p ps, s.parent = some p ∧ p < id ∧ t.scopes[p]? = some ps ∧ s.depth = ps.depth + 1

/-- Every scope of `t` is a scope of `t'` with the same place; it may have more names there. -/
def Extends (t t' : ScopeTable) : Prop :=
  ∀ (id : Nat) (s : Scope), t.scopes[id]? = some s →
    ∃ s' : Scope, t'.scopes[id]? = some s' ∧ s'.kind = s.kind ∧ s'.parent = s.parent ∧
      s'.depth = s.depth

namespace Extends

theorem refl (t : ScopeTable) : t.Extends t := by
  intro id s hs
  exact ⟨s, hs, rfl, rfl, rfl⟩

theorem trans
    {t₁ t₂ t₃ : ScopeTable}
    (h₁ : t₁.Extends t₂)
    (h₂ : t₂.Extends t₃) :
    t₁.Extends t₃ := by
  intro id s hs
  obtain ⟨s₂, hs₂, hk₂, hp₂, hd₂⟩ := h₁ id s hs
  obtain ⟨s₃, hs₃, hk₃, hp₃, hd₃⟩ := h₂ id s₂ hs₂
  exact ⟨s₃, hs₃, hk₃.trans hk₂, hp₃.trans hp₂, hd₃.trans hd₂⟩

theorem length_le
    {t t' : ScopeTable}
    (h : t.Extends t') :
    t.scopes.length ≤ t'.scopes.length := by
  by_contra hlt
  have hin : t'.scopes.length < t.scopes.length := by omega
  obtain ⟨s', hs', _⟩ := h t'.scopes.length _ (List.getElem?_eq_getElem hin)
  have hbound := (List.getElem?_eq_some_iff.mp hs').1
  omega

end Extends

/-! ### Walking outward -/

namespace Nested

theorem parent_eq_none_iff
    {t : ScopeTable}
    (h : t.Nested)
    {id : Nat}
    {s : Scope}
    (hs : t.scopes[id]? = some s) :
    s.parent = none ↔ id = 0 := by
  constructor
  · intro hnone
    by_contra hid
    obtain ⟨p, _, hp, _⟩ := h.inner id s hs hid
    simp [hnone] at hp
  · rintro rfl
    obtain ⟨r, hr, hnone, _⟩ := h.root
    rwa [← Option.some.inj (hr.symm.trans hs)]

theorem parent_lt
    {t : ScopeTable}
    (h : t.Nested)
    {id p : Nat}
    {s : Scope}
    (hs : t.scopes[id]? = some s)
    (hp : s.parent = some p) :
    p < id := by
  have hid : id ≠ 0 := fun hid => by simp [(h.parent_eq_none_iff hs).mpr hid] at hp
  obtain ⟨q, _, hq, hlt, -⟩ := h.inner id s hs hid
  rwa [Option.some.inj (hp.symm.trans hq)]

theorem depth_eq_zero_iff
    {t : ScopeTable}
    (h : t.Nested)
    {id : Nat}
    {s : Scope}
    (hs : t.scopes[id]? = some s) :
    s.depth = 0 ↔ id = 0 := by
  constructor
  · intro hzero
    by_contra hid
    obtain ⟨_, _, _, _, _, hdepth⟩ := h.inner id s hs hid
    omega
  · rintro rfl
    obtain ⟨r, hr, _, _, hzero⟩ := h.root
    rwa [← Option.some.inj (hr.symm.trans hs)]

/-- Parents come before their scopes, so a walk outward from `id` takes at most `id` steps. -/
theorem enclosingUpTo_eq
    {t : ScopeTable}
    (h : t.Nested)
    {id : Nat} :
    ∀ {m n : Nat}, id < m → id < n → t.enclosingUpTo m id = t.enclosingUpTo n id := by
  induction id using Nat.strongRecOn with
  | _ id ih =>
      intro m n hm hn
      obtain ⟨m, rfl⟩ : ∃ k, m = k + 1 := ⟨m - 1, by omega⟩
      obtain ⟨n, rfl⟩ : ∃ k, n = k + 1 := ⟨n - 1, by omega⟩
      simp only [enclosingUpTo]
      cases hs : t.scopes[id]? with
      | none => rfl
      | some s =>
          cases hp : s.parent with
          | none => simp [hp]
          | some p =>
              have hlt := h.parent_lt hs hp
              have hrest : t.enclosingUpTo m p = t.enclosingUpTo n p :=
                ih p hlt (by omega) (by omega)
              simp only [hp, hrest]

/-- A scope inside another one is walked first, then the scopes around the other one. -/
theorem enclosing_of_parent
    {t : ScopeTable}
    (h : t.Nested)
    {id p : Nat}
    {s : Scope}
    (hs : t.scopes[id]? = some s)
    (hp : s.parent = some p) :
    t.enclosing id = id :: t.enclosing p := by
  have hid : id < t.scopes.length := (List.getElem?_eq_some_iff.mp hs).1
  have hlt := h.parent_lt hs hp
  obtain ⟨n, hn⟩ : ∃ n, t.scopes.length = n + 1 := ⟨t.scopes.length - 1, by omega⟩
  unfold enclosing
  conv_lhs => rw [hn, enclosingUpTo]
  simp only [hs, hp]
  have hwalk : t.enclosingUpTo n p = t.enclosingUpTo t.scopes.length p :=
    h.enclosingUpTo_eq (by omega) (by omega)
  rw [hwalk]

/-- The walk outward from the module ends at once. -/
theorem enclosing_root
    {t : ScopeTable}
    (h : t.Nested) :
    t.enclosing 0 = [0] := by
  obtain ⟨s, hs, hp, _⟩ := h.root
  have hlen : 0 < t.scopes.length := (List.getElem?_eq_some_iff.mp hs).1
  obtain ⟨n, hn⟩ : ∃ n, t.scopes.length = n + 1 := ⟨t.scopes.length - 1, by omega⟩
  unfold enclosing
  rw [hn, enclosingUpTo]
  simp [hs, hp]

/-- A name is looked up in a scope first and then around it. -/
theorem resolve_eq
    {t : ScopeTable}
    (h : t.Nested)
    {id : Nat}
    {s : Scope}
    (hs : t.scopes[id]? = some s)
    (name : String) :
    t.resolve name id = if s.declares name then some id else s.parent.bind (t.resolve name) := by
  unfold resolve
  cases hp : s.parent with
  | none =>
      obtain rfl := (h.parent_eq_none_iff hs).mp hp
      cases hdeclares : s.declares name <;> simp [h.enclosing_root, scopeIs, hs, hdeclares]
  | some p =>
      rw [h.enclosing_of_parent hs hp]
      cases hdeclares : s.declares name <;> simp [scopeIs, hs, hdeclares]

end Nested

theorem Extends.enclosing_eq
    {t t' : ScopeTable}
    (h : t.Extends t')
    (hn : t.Nested)
    (hn' : t'.Nested)
    {id : Nat}
    (hid : id < t.scopes.length) :
    t'.enclosing id = t.enclosing id := by
  induction id using Nat.strongRecOn with
  | _ id ih =>
      by_cases hzero : id = 0
      · subst hzero
        rw [hn.enclosing_root, hn'.enclosing_root]
      · have hs := List.getElem?_eq_getElem hid
        obtain ⟨p, _, hp, hlt, _⟩ := hn.inner id _ hs hzero
        obtain ⟨s', hs', _, hp', _⟩ := h id _ hs
        rw [hn.enclosing_of_parent hs hp, hn'.enclosing_of_parent hs' (hp'.trans hp),
          ih p hlt (by omega)]

/-- A test of a scope's place has the same outcome in a table that extends the first. -/
theorem Extends.scopeIs_kind
    {t t' : ScopeTable}
    (h : t.Extends t')
    {id : Nat}
    (hid : id < t.scopes.length) :
    t'.scopeIs (·.kind.isVarScope) id = t.scopeIs (·.kind.isVarScope) id := by
  have hs := List.getElem?_eq_getElem hid
  obtain ⟨s', hs', hk, _, _⟩ := h id _ hs
  simp [scopeIs, hs, hs', hk]

/-- All scopes of a walk outward stand in the table. -/
theorem Nested.lt_of_mem_enclosing
    {t : ScopeTable}
    (h : t.Nested)
    {id : Nat}
    (hid : id < t.scopes.length) :
    ∀ j ∈ t.enclosing id, j ≤ id := by
  induction id using Nat.strongRecOn with
  | _ id ih =>
      by_cases hzero : id = 0
      · subst hzero
        simp [h.enclosing_root]
      · have hs := List.getElem?_eq_getElem hid
        obtain ⟨p, _, hp, hlt, _⟩ := h.inner id _ hs hzero
        rw [h.enclosing_of_parent hs hp]
        intro j hj
        rcases List.mem_cons.mp hj with rfl | hj
        · exact Nat.le_refl _
        · exact Nat.le_trans (ih p hlt (by omega) j hj) (Nat.le_of_lt hlt)

/-- Every walk outward comes to the module. -/
theorem Nested.root_mem_enclosing
    {t : ScopeTable}
    (h : t.Nested)
    {id : Nat}
    (hid : id < t.scopes.length) :
    0 ∈ t.enclosing id := by
  induction id using Nat.strongRecOn with
  | _ id ih =>
      by_cases hzero : id = 0
      · subst hzero
        simp [h.enclosing_root]
      · have hs := List.getElem?_eq_getElem hid
        obtain ⟨p, _, hp, hlt, _⟩ := h.inner id _ hs hzero
        rw [h.enclosing_of_parent hs hp]
        exact List.mem_cons_of_mem _ (ih p hlt (by omega))

theorem Extends.varScope_eq
    {t t' : ScopeTable}
    (h : t.Extends t')
    (hn : t.Nested)
    (hn' : t'.Nested)
    {id : Nat}
    (hid : id < t.scopes.length) :
    t'.varScope id = t.varScope id := by
  unfold varScope
  rw [h.enclosing_eq hn hn' hid]
  congr 1
  apply List.find?_congr
  intro j hj
  exact h.scopeIs_kind (Nat.lt_of_le_of_lt (hn.lt_of_mem_enclosing hid j hj) hid)

theorem Nested.varScope_le
    {t : ScopeTable}
    (h : t.Nested)
    {id : Nat}
    (hid : id < t.scopes.length) :
    t.varScope id ≤ id := by
  unfold varScope
  cases hf : (t.enclosing id).find? (t.scopeIs (·.kind.isVarScope)) with
  | none => exact Nat.le_refl id
  | some j => exact h.lt_of_mem_enclosing hid j (List.mem_of_find?_eq_some hf)

/-- A scope that stops `var` declarations is its own target. -/
theorem Nested.varScope_self
    {t : ScopeTable}
    (h : t.Nested)
    {id p : Nat}
    {s : Scope}
    (hs : t.scopes[id]? = some s)
    (hp : s.parent = some p)
    (hk : s.kind.isVarScope = true) :
    t.varScope id = id := by
  unfold varScope
  rw [h.enclosing_of_parent hs hp]
  simp [scopeIs, hs, hk]

/-- Any other scope hands `var` declarations on to the scope around it. -/
theorem Nested.varScope_parent
    {t : ScopeTable}
    (h : t.Nested)
    {id p : Nat}
    {s : Scope}
    (hs : t.scopes[id]? = some s)
    (hp : s.parent = some p)
    (hk : s.kind.isVarScope = false) :
    t.varScope id = t.varScope p := by
  have hid : id < t.scopes.length := (List.getElem?_eq_some_iff.mp hs).1
  have hlt := h.parent_lt hs hp
  unfold varScope
  rw [h.enclosing_of_parent hs hp]
  have hstep : t.scopeIs (·.kind.isVarScope) id = false := by simp [scopeIs, hs, hk]
  rw [List.find?_cons, hstep]
  cases hf : (t.enclosing p).find? (t.scopeIs (·.kind.isVarScope)) with
  | some j => rfl
  | none =>
      -- the walk always ends at the module, which is a target
      obtain ⟨r, hr, _, hkind, _⟩ := h.root
      have hmem : 0 ∈ t.enclosing p := h.root_mem_enclosing (by omega)
      have := List.find?_eq_none.mp hf 0 hmem
      simp [scopeIs, hr, hkind, ScopeKind.isVarScope] at this

/-! ### Single entries -/

theorem mem_foldl_declare
    (names : List String)
    (s : Scope)
    (x : String) :
    x ∈ (names.foldl Scope.declare s).names ↔ x ∈ s.names ∨ x ∈ names := by
  induction names generalizing s with
  | nil => simp
  | cons name rest ih =>
      rw [List.foldl_cons, ih, List.mem_cons]
      unfold Scope.declare
      split
      · rename_i hin
        have hin : name ∈ s.names := by simpa using hin
        constructor
        · rintro (h | h)
          · exact Or.inl h
          · exact Or.inr (Or.inr h)
        · rintro (h | rfl | h)
          · exact Or.inl h
          · exact Or.inl hin
          · exact Or.inr h
      · simp [or_assoc]

theorem foldl_declare_place
    (names : List String)
    (s : Scope) :
    (names.foldl Scope.declare s).kind = s.kind ∧
      (names.foldl Scope.declare s).parent = s.parent ∧
      (names.foldl Scope.declare s).depth = s.depth := by
  induction names generalizing s with
  | nil => simp
  | cons name rest ih =>
      rw [List.foldl_cons]
      obtain ⟨hk, hp, hd⟩ := ih (s.declare name)
      rw [hk, hp, hd]
      unfold Scope.declare
      split <;> simp

theorem getElem?_declare
    (t : ScopeTable)
    (target : Nat)
    (names : List String)
    (id : Nat) :
    (t.declare target names).scopes[id]? =
      (t.scopes[id]?).map fun s => if target = id then names.foldl Scope.declare s else s := by
  simp only [declare, List.getElem?_modify]
  split <;> simp_all

theorem mem_namesAt_declare
    (t : ScopeTable)
    {target : Nat}
    (ht : target < t.scopes.length)
    (names : List String)
    (id : Nat)
    (x : String) :
    x ∈ (t.declare target names).namesAt id ↔
      x ∈ t.namesAt id ∨ (id = target ∧ x ∈ names) := by
  unfold namesAt
  rw [getElem?_declare]
  by_cases hid : target = id
  · subst hid
    simp [List.getElem?_eq_getElem ht, mem_foldl_declare]
  · have : id ≠ target := fun h => hid h.symm
    simp [hid, this]

theorem extends_declare
    (t : ScopeTable)
    (target : Nat)
    (names : List String) :
    t.Extends (t.declare target names) := by
  intro id s hs
  rw [getElem?_declare, hs]
  obtain ⟨hk, hp, hd⟩ := foldl_declare_place names s
  by_cases hid : target = id
  · exact ⟨_, rfl, by simp [hid, hk], by simp [hid, hp], by simp [hid, hd]⟩
  · exact ⟨s, by simp [hid], rfl, rfl, rfl⟩

@[simp] theorem length_declare
    (t : ScopeTable)
    (target : Nat)
    (names : List String) :
    (t.declare target names).scopes.length = t.scopes.length := by
  simp [declare]

/-- A table with the same places is as well nested. -/
theorem Nested.of_extends
    {t t' : ScopeTable}
    (h : t.Nested)
    (he : t.Extends t')
    (hlen : t'.scopes.length = t.scopes.length) :
    t'.Nested where
  root := by
    obtain ⟨s, hs, hp, hk, hd⟩ := h.root
    obtain ⟨s', hs', hk', hp', hd'⟩ := he 0 s hs
    exact ⟨s', hs', hp'.trans hp, hk'.trans hk, hd'.trans hd⟩
  inner := by
    intro id s' hs' hid
    have hlt : id < t.scopes.length := by
      rw [← hlen]
      exact (List.getElem?_eq_some_iff.mp hs').1
    have hs := List.getElem?_eq_getElem hlt
    obtain ⟨s'', hs'', _, hp', hd'⟩ := he id _ hs
    have hsame : s'' = s' := Option.some.inj (hs''.symm.trans hs')
    subst hsame
    obtain ⟨p, ps, hp, hplt, hps, hd⟩ := h.inner id _ hs hid
    obtain ⟨ps', hps', _, _, hpd⟩ := he p ps hps
    exact ⟨p, ps', hp'.trans hp, hplt, hps', by rw [hd', hd, hpd]⟩

theorem Nested.declare
    {t : ScopeTable}
    (h : t.Nested)
    (target : Nat)
    (names : List String) :
    (t.declare target names).Nested :=
  h.of_extends (extends_declare t target names) (length_declare t target names)

theorem getElem?_openScope
    (t : ScopeTable)
    (outer : Nat)
    (span : Span)
    (kind : ScopeKind)
    {id : Nat}
    (hid : id < t.scopes.length) :
    (t.openScope outer span kind).2.scopes[id]? = t.scopes[id]? := by
  simp [openScope, List.getElem?_append_left hid]

theorem extends_openScope
    (t : ScopeTable)
    (outer : Nat)
    (span : Span)
    (kind : ScopeKind) :
    t.Extends (t.openScope outer span kind).2 := by
  intro id s hs
  have hid := (List.getElem?_eq_some_iff.mp hs).1
  exact ⟨s, by rw [getElem?_openScope t outer span kind hid, hs], rfl, rfl, rfl⟩

/-- The scope that is opened comes last; it lies in `outer` and has no names yet. -/
theorem getElem?_openScope_last
    (t : ScopeTable)
    (outer : Nat)
    (span : Span)
    (kind : ScopeKind) :
    ∃ depth,
      (t.openScope outer span kind).2.scopes[t.scopes.length]? =
        some ⟨kind, span, some outer, depth, []⟩ ∧
      depth = (t.scopes[outer]?.map (·.depth + 1)).getD 0 := by
  exact ⟨_, by simp [openScope], rfl⟩

theorem Nested.openScope
    {t : ScopeTable}
    (h : t.Nested)
    {outer : Nat}
    (ho : outer < t.scopes.length)
    (span : Span)
    (kind : ScopeKind) :
    (t.openScope outer span kind).2.Nested where
  root := by
    obtain ⟨s, hs, hrest⟩ := h.root
    have hlen := (List.getElem?_eq_some_iff.mp hs).1
    exact ⟨s, by rw [getElem?_openScope t outer span kind hlen, hs], hrest⟩
  inner := by
    intro id s hs hid
    have hlen : id < t.scopes.length + 1 := by
      simpa [ScopeTable.openScope] using (List.getElem?_eq_some_iff.mp hs).1
    by_cases hlt : id < t.scopes.length
    · rw [getElem?_openScope t outer span kind hlt] at hs
      obtain ⟨p, ps, hp, hplt, hps, hd⟩ := h.inner id s hs hid
      have hpin := (List.getElem?_eq_some_iff.mp hps).1
      exact ⟨p, ps, hp, hplt, by rw [getElem?_openScope t outer span kind hpin, hps], hd⟩
    · have hlast : id = t.scopes.length := by omega
      subst hlast
      obtain ⟨depth, hnew, hdepth⟩ := getElem?_openScope_last t outer span kind
      rw [hnew] at hs
      cases hs
      have houter := List.getElem?_eq_getElem ho
      refine ⟨outer, t.scopes[outer], rfl, ho, ?_, ?_⟩
      · rw [getElem?_openScope t outer span kind ho, houter]
      · simp [hdepth, houter]

/-! ### Code in a table -/

/-- The scopes from `id` outward up to, and without, `outer` have the given names, and none of
them was there when the table had `size` scopes. -/
inductive Inside (t : ScopeTable) (outer size : Nat) : Nat → List (List String) → Prop
  | here : Inside t outer size outer []
  | step
      {id p : Nat}
      {s : Scope}
      {names : List String}
      {rest : List (List String)} :
      size ≤ id →
      t.scopes[id]? = some s →
      s.parent = some p →
      (∀ x, x ∈ s.names ↔ x ∈ names) →
      Inside t outer size p rest →
      Inside t outer size id (names :: rest)

/-- A reference of the table stands for an occurrence. -/
structure StandsFor (t : ScopeTable) (outer size : Nat) (r : Reference) (o : Occurrence) :
    Prop where
  name : r.name = o.name
  span : r.span = o.span
  shorthand : r.shorthand = o.shorthand
  inside : t.Inside outer size r.scope o.around

/-- The table `t'` is what `t` becomes when code is entered that stands in the scope `current`:
code that declares `block` in its own scope, `hoisted` in the function around it and `imported`
in the module, and in which `found` occurs. -/
structure Entered
    (t t' : ScopeTable)
    (current : Nat)
    (block hoisted imported : List String)
    (found : List Occurrence) :
    Prop where
  extends_ : t.Extends t'
  nested : t'.Nested
  names :
    ∀ id < t.scopes.length, ∀ x,
      x ∈ t'.namesAt id ↔
        x ∈ t.namesAt id ∨ (id = current ∧ x ∈ block) ∨
          (id = t.varScope current ∧ x ∈ hoisted) ∨ (id = 0 ∧ x ∈ imported)
  references :
    ∃ added, t'.references = t.references ++ added ∧
      List.Forall₂ (t'.StandsFor current t.scopes.length) added found

namespace Inside

theorem lt
    {t : ScopeTable}
    {outer size id : Nat}
    {names : List (List String)}
    (h : t.Inside outer size id names)
    (houter : outer < t.scopes.length) :
    id < t.scopes.length := by
  cases h with
  | here => exact houter
  | step _ hs => exact (List.getElem?_eq_some_iff.mp hs).1

/-- Names entered in scopes that were there before do not show inside the new ones. -/
theorem of_entered
    {t t' : ScopeTable}
    {current : Nat}
    {block hoisted imported : List String}
    {found : List Occurrence}
    (h : Entered t t' current block hoisted imported found)
    (ht : t.Nested)
    {outer size id : Nat}
    {names : List (List String)}
    (hcurrent : current < size)
    (hsize : size ≤ t.scopes.length)
    (hin : t.Inside outer size id names) :
    t'.Inside outer size id names := by
  have hvar : t.varScope current ≤ current := ht.varScope_le (by omega)
  induction hin with
  | here => exact .here
  | @step id p s names rest hid hs hp hnames _ ih =>
      obtain ⟨s', hs', _, hp', _⟩ := h.extends_ id s hs
      refine .step hid hs' (hp'.trans hp) ?_ ih
      intro x
      rw [← hnames x]
      have hkept := h.names id (List.getElem?_eq_some_iff.mp hs).1 x
      have h₁ : id ≠ current := by omega
      have h₂ : id ≠ t.varScope current := by omega
      have h₃ : id ≠ 0 := by omega
      simpa [namesAt, hs, hs', h₁, h₂, h₃] using hkept

theorem weaken
    {t : ScopeTable}
    {outer size size' id : Nat}
    {names : List (List String)}
    (hin : t.Inside outer size id names)
    (hsize : size' ≤ size) :
    t.Inside outer size' id names := by
  induction hin with
  | here => exact .here
  | step hid hs hp hnames _ ih => exact .step (by omega) hs hp hnames ih

/-- A walk that ends at `mid` goes on with the one scope `mid` to the scope around it. -/
theorem snoc
    {t : ScopeTable}
    {mid outer size size' id : Nat}
    {s : Scope}
    {names : List (List String)}
    {scope : List String}
    (hin : t.Inside mid size id names)
    (hsize : size' ≤ size)
    (hmid : size' ≤ mid)
    (hs : t.scopes[mid]? = some s)
    (hp : s.parent = some outer)
    (hscope : ∀ x, x ∈ s.names ↔ x ∈ scope) :
    t.Inside outer size' id (names ++ [scope]) := by
  induction hin with
  | here => exact .step hmid hs hp hscope .here
  | step hid hs' hp' hnames _ ih => exact .step (by omega) hs' hp' hnames ih

end Inside

namespace Entered

/-- No code. -/
theorem nil
    {t : ScopeTable}
    (ht : t.Nested)
    (current : Nat) :
    Entered t t current [] [] [] [] where
  extends_ := Extends.refl t
  nested := ht
  names := by simp
  references := ⟨[], by simp, .nil⟩

/-- Pieces of code in one scope are entered one after the other. -/
theorem append
    {t₁ t₂ t₃ : ScopeTable}
    {current : Nat}
    {block₁ hoisted₁ imported₁ block₂ hoisted₂ imported₂ : List String}
    {found₁ found₂ : List Occurrence}
    (ht : t₁.Nested)
    (hcurrent : current < t₁.scopes.length)
    (h₁ : Entered t₁ t₂ current block₁ hoisted₁ imported₁ found₁)
    (h₂ : Entered t₂ t₃ current block₂ hoisted₂ imported₂ found₂) :
    Entered t₁ t₃ current (block₁ ++ block₂) (hoisted₁ ++ hoisted₂) (imported₁ ++ imported₂)
      (found₁ ++ found₂) where
  extends_ := h₁.extends_.trans h₂.extends_
  nested := h₂.nested
  names := by
    intro id hid x
    have hlen := h₁.extends_.length_le
    have hvar := h₁.extends_.varScope_eq ht h₁.nested hcurrent
    rw [h₂.names id (by omega) x, h₁.names id hid x, hvar]
    simp only [List.mem_append]
    tauto
  references := by
    obtain ⟨added₁, hrefs₁, hall₁⟩ := h₁.references
    obtain ⟨added₂, hrefs₂, hall₂⟩ := h₂.references
    have hlen := h₁.extends_.length_le
    refine ⟨added₁ ++ added₂, by rw [hrefs₂, hrefs₁, List.append_assoc], ?_⟩
    apply List.rel_append
    · refine hall₁.imp ?_
      intro r o hr
      exact ⟨hr.name, hr.span, hr.shorthand,
        hr.inside.of_entered h₂ h₁.nested hcurrent hlen⟩
    · refine hall₂.imp ?_
      intro r o hr
      exact ⟨hr.name, hr.span, hr.shorthand, hr.inside.weaken hlen⟩

end Entered

/-- Names that stand in front of code are entered before it. -/
theorem Entered.declaredFirst
    {t t' : ScopeTable}
    {current target : Nat}
    {block hoisted imported block' hoisted' imported' : List String}
    {found : List Occurrence}
    (ht : t.Nested)
    (hcurrent : current < t.scopes.length)
    (htarget : target < t.scopes.length)
    (names : List String)
    (h : Entered (t.declare target names) t' current block hoisted imported found)
    (hnames :
      ∀ id < t.scopes.length, ∀ x,
        ((id = current ∧ x ∈ block') ∨ (id = t.varScope current ∧ x ∈ hoisted') ∨
            (id = 0 ∧ x ∈ imported')) ↔
          (id = target ∧ x ∈ names) ∨ (id = current ∧ x ∈ block) ∨
            (id = t.varScope current ∧ x ∈ hoisted) ∨ (id = 0 ∧ x ∈ imported)) :
    Entered t t' current block' hoisted' imported' found := by
  have hext := extends_declare t target names
  have hvar := hext.varScope_eq ht (ht.declare target names) hcurrent
  refine ⟨hext.trans h.extends_, h.nested, ?_, ?_⟩
  · intro id hid x
    rw [h.names id (by simpa using hid) x, mem_namesAt_declare t htarget, hvar,
      hnames id hid x, or_assoc]
  · simpa [ScopeTable.declare] using h.references

/-! ### Constructs that open a scope -/

/-- The table `t'` is `t` with one more scope, which lies in `current` and has the names `own`;
the names `outer` have been entered in `current`. -/
structure Opened
    (t t' : ScopeTable)
    (current : Nat)
    (kind : ScopeKind)
    (own outer : List String) :
    Prop where
  extends_ : t.Extends t'
  nested : t'.Nested
  length : t'.scopes.length = t.scopes.length + 1
  last :
    ∃ s, t'.scopes[t.scopes.length]? = some s ∧ s.kind = kind ∧ s.parent = some current
  names :
    ∀ id < t.scopes.length, ∀ x,
      x ∈ t'.namesAt id ↔ x ∈ t.namesAt id ∨ (id = current ∧ x ∈ outer)
  own : ∀ x, x ∈ t'.namesAt t.scopes.length ↔ x ∈ own
  references : t'.references = t.references

namespace Opened

theorem openScope
    {t : ScopeTable}
    (ht : t.Nested)
    {current : Nat}
    (hcurrent : current < t.scopes.length)
    (span : Span)
    (kind : ScopeKind) :
    Opened t (t.openScope current span kind).2 current kind [] [] where
  extends_ := extends_openScope t current span kind
  nested := ht.openScope hcurrent span kind
  length := by simp [ScopeTable.openScope]
  last := by
    obtain ⟨_, hs, _⟩ := getElem?_openScope_last t current span kind
    exact ⟨_, hs, rfl, rfl⟩
  names := by
    intro id hid x
    simp [namesAt, getElem?_openScope t current span kind hid]
  own := by
    obtain ⟨_, hs, _⟩ := getElem?_openScope_last t current span kind
    simp [namesAt, hs]
  references := rfl

/-- The place of every scope survives further declarations. -/
theorem declare
    {t t' : ScopeTable}
    {current target : Nat}
    {kind : ScopeKind}
    {own outer own' outer' : List String}
    (h : Opened t t' current kind own outer)
    (htarget : target ≤ t.scopes.length)
    (names : List String)
    (hown : ∀ x, x ∈ own' ↔ x ∈ own ∨ (target = t.scopes.length ∧ x ∈ names))
    (houter :
      ∀ id < t.scopes.length, ∀ x,
        (id = current ∧ x ∈ outer') ↔
          (id = current ∧ x ∈ outer) ∨ (id = target ∧ x ∈ names)) :
    Opened t (t'.declare target names) current kind own' outer' where
  extends_ := h.extends_.trans (extends_declare t' target names)
  nested := h.nested.declare target names
  length := by simp [h.length]
  last := by
    obtain ⟨s, hs, hk, hp⟩ := h.last
    obtain ⟨s', hs', hk', hp', _⟩ := extends_declare t' target names _ s hs
    exact ⟨s', hs', hk'.trans hk, hp'.trans hp⟩
  names := by
    intro id hid x
    rw [mem_namesAt_declare t' (by rw [h.length]; omega), h.names id hid x, houter id hid x,
      or_assoc]
  own := by
    intro x
    rw [mem_namesAt_declare t' (by rw [h.length]; omega), h.own x, hown x]
    constructor
    · rintro (h | ⟨h₁, h₂⟩)
      · exact Or.inl h
      · exact Or.inr ⟨h₁.symm, h₂⟩
    · rintro (h | ⟨h₁, h₂⟩)
      · exact Or.inl h
      · exact Or.inr ⟨h₁.symm, h₂⟩
  references := h.references

theorem declareInner
    {t t' : ScopeTable}
    {current : Nat}
    {kind : ScopeKind}
    {own outer : List String}
    (h : Opened t t' current kind own outer)
    (names : List String) :
    Opened t (t'.declare t.scopes.length names) current kind (own ++ names) outer := by
  refine h.declare (Nat.le_refl _) names (by simp) ?_
  intro id hid x
  have : id ≠ t.scopes.length := by omega
  simp [this]

theorem declareOuter
    {t t' : ScopeTable}
    {current : Nat}
    {kind : ScopeKind}
    {own outer : List String}
    (hcurrent : current < t.scopes.length)
    (h : Opened t t' current kind own outer)
    (names : List String) :
    Opened t (t'.declare current names) current kind own (outer ++ names) := by
  have : current ≠ t.scopes.length := by omega
  refine h.declare (Nat.le_of_lt hcurrent) names (by simp [this]) ?_
  intro id hid x
  rw [List.mem_append]
  tauto

/-- The name of a construct is entered outside or inside, as `declared` says. -/
theorem declareName
    {t t' : ScopeTable}
    {current : Nat}
    {kind : ScopeKind}
    (hcurrent : current < t.scopes.length)
    (h : Opened t t' current kind [] [])
    (declared : Bool)
    (names : List String) :
    Opened t (t'.declare (if declared then current else t.scopes.length) names) current kind
      (if declared then [] else names) (if declared then names else []) := by
  cases declared with
  | true => simpa using h.declareOuter hcurrent names
  | false => simpa using h.declareInner names

end Opened

/-- The code of a construct is entered in the scope that the construct opens. -/
theorem Entered.scope
    {t t₁ t' : ScopeTable}
    {current : Nat}
    {kind : ScopeKind}
    {own outer block hoisted imported : List String}
    {found : List Occurrence}
    (ht : t.Nested)
    (hcurrent : current < t.scopes.length)
    (hopen : Opened t t₁ current kind own outer)
    (h : Entered t₁ t' t.scopes.length block hoisted imported found)
    (scope : List String)
    (hscope :
      ∀ x, x ∈ scope ↔ x ∈ own ∨ x ∈ block ∨ (kind.isVarScope = true ∧ x ∈ hoisted)) :
    Entered t t' current outer (if kind.isVarScope then [] else hoisted) imported
      (found.map (·.within scope)) := by
  obtain ⟨s, hs, hk, hp⟩ := hopen.last
  have hlen := hopen.length
  have hroot : t.scopes.length ≠ 0 := by omega
  have hvar : t₁.varScope t.scopes.length =
      if kind.isVarScope then t.scopes.length else t.varScope current := by
    cases hkind : kind.isVarScope with
    | true => simpa using hopen.nested.varScope_self hs hp (by rw [hk, hkind])
    | false =>
        rw [hopen.nested.varScope_parent hs hp (by rw [hk, hkind]),
          hopen.extends_.varScope_eq ht hopen.nested hcurrent]
        simp
  have hle : t.varScope current ≤ current := ht.varScope_le hcurrent
  refine ⟨hopen.extends_.trans h.extends_, h.nested, ?_, ?_⟩
  · intro id hid x
    have hne : id ≠ t.scopes.length := by omega
    rw [h.names id (by omega) x, hopen.names id hid x, hvar]
    cases kind.isVarScope with
    | true => simp [hne, or_assoc]
    | false => simp [hne, or_assoc]
  · obtain ⟨added, hrefs, hall⟩ := h.references
    refine ⟨added, by rw [hrefs, hopen.references], ?_⟩
    obtain ⟨s', hs', _, hp', _⟩ := h.extends_ _ s hs
    have hnames : ∀ x, x ∈ s'.names ↔ x ∈ scope := by
      intro x
      have hkept := h.names t.scopes.length (by omega) x
      have hne : t.scopes.length ≠ t.varScope current := by omega
      rw [hopen.own x, hvar] at hkept
      rw [hscope x]
      cases hkind : kind.isVarScope with
      | true => simpa [namesAt, hs', hkind, hroot] using hkept
      | false => simpa [namesAt, hs', hkind, hroot, hne] using hkept
    rw [List.forall₂_map_right_iff]
    refine hall.imp ?_
    intro r o hr
    exact ⟨hr.name, hr.span, hr.shorthand,
      hr.inside.snoc (by omega) (Nat.le_refl _) hs' (hp'.trans hp) hnames⟩

/-! ### Looking names up -/

theorem nested_empty : empty.Nested where
  root := ⟨_, rfl, rfl, rfl, rfl⟩
  inner := by
    intro id s hs hid
    have : id < 1 := (List.getElem?_eq_some_iff.mp hs).1
    omega

/-- A name seen from a scope is the module's if the module declares it and no scope on the way
does. -/
theorem Nested.resolvesToModule_iff
    {t : ScopeTable}
    (ht : t.Nested)
    {id : Nat}
    {around : List (List String)}
    (hin : t.Inside 0 1 id around)
    (name : String) :
    t.resolvesToModule name id = true ↔
      name ∈ t.namesAt 0 ∧ ∀ scope ∈ around, name ∉ scope := by
  induction hin with
  | here =>
      obtain ⟨r, hr, _, _, hdepth⟩ := ht.root
      unfold resolvesToModule resolve
      rw [ht.enclosing_root]
      by_cases hname : name ∈ r.names
      · simp [scopeIs, namesAt, Scope.declares, hr, hdepth, hname]
      · simp [scopeIs, namesAt, Scope.declares, hr, hname]
  | @step id p s names rest hid hs hp hnames _ ih =>
      have hdepth : s.depth ≠ 0 := fun hzero => by
        have := (ht.depth_eq_zero_iff hs).mp hzero
        omega
      have hwalk : t.resolve name id =
          if name ∈ names then some id else t.resolve name p := by
        simp [ht.resolve_eq hs, hp, Scope.declares, hnames]
      by_cases hname : name ∈ names
      · have hdeep : t.scopeIs (·.depth == 0) id = false := by
          simp [scopeIs, hs, hdepth]
        simp [resolvesToModule, hwalk, hname, hdeep]
      · have hsame : t.resolvesToModule name id = t.resolvesToModule name p := by
          simp [resolvesToModule, hwalk, hname]
        rw [hsame, ih]
        simp [hname]

end ScopeTable
end EsModules
