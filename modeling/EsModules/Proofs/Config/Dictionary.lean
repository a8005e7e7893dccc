import EsModules.Proofs.Config.Json

/-!
# Dictionaries in order

The entries of a dictionary stand in the order of their keys, and laying one over another keeps
them so.  What is found under a key is then the upper value, or the upper value over the lower one
where both are there (`get?_over`).
-/

namespace EsModules
namespace Config

/-- The keys stand in increasing order. -/
def Fields.Sorted (fields : Fields) : Prop :=
  fields.Pairwise fun a b => a.1 < b.1

/-- The entries of a dictionary stand in order. -/
def Value.Sorted (value : Value) : Prop :=
  ∀ fields, value = .dict fields → Fields.Sorted fields

/-- Settings in the order of their keys, among them dictionaries in order. -/
structure Fields.Layer (fields : Fields) : Prop where
  sorted : fields.Sorted
  values : ∀ key value, fields.get? key = some value → value.Sorted

/-- A value on what lies below it, if there is something. -/
def Value.onto (value : Value) : Option Value → Value
  | some below => value.over below
  | none => value

theorem Value.sorted_dict {fields : Fields} (h : fields.Sorted) : Value.Sorted (.dict fields) := by
  rintro _ ⟨⟩
  exact h

namespace Fields

variable {fields upper lower : Fields} {key : String} {value : Value}

/-! ### Entries -/

theorem mem_of_get? (h : fields.get? key = some value) : (key, value) ∈ fields := by
  obtain ⟨entry, hentry, rfl⟩ := Option.map_eq_some_iff.mp h
  have hkey := List.find?_some hentry
  rw [beq_iff_eq] at hkey
  rw [← hkey]
  exact List.mem_of_find?_eq_some hentry

theorem get?_eq_none_iff : fields.get? key = none ↔ ∀ entry ∈ fields, entry.1 ≠ key := by
  unfold get?
  rw [Option.map_eq_none_iff, List.find?_eq_none]
  simp only [beq_iff_eq, ne_eq]

theorem mem_set {entry : String × Value} (h : entry ∈ fields.set key value) :
    entry = (key, value) ∨ entry ∈ fields := by
  fun_induction set fields key value with
  | case1 => exact .inl (List.mem_singleton.mp h)
  | case2 k v rest key value hlt => exact List.mem_cons.mp h
  | case3 k v rest key value hlt heq =>
      rcases List.mem_cons.mp h with h | h
      · exact .inl h
      · exact .inr (List.mem_cons_of_mem _ h)
  | case4 k v rest key value hlt hne ih =>
      rcases List.mem_cons.mp h with h | h
      · exact .inr (h ▸ List.mem_cons_self)
      · rcases ih h with h | h
        · exact .inl h
        · exact .inr (List.mem_cons_of_mem _ h)

theorem Sorted.set (h : fields.Sorted) (key : String) (value : Value) :
    (fields.set key value).Sorted := by
  fun_induction Fields.set fields key value with
  | case1 key value => exact List.pairwise_singleton _ _
  | case2 k v rest key value hlt =>
      refine List.pairwise_cons.mpr ⟨?_, h⟩
      intro entry hentry
      rcases List.mem_cons.mp hentry with rfl | hentry
      · exact hlt
      · exact String.lt_trans hlt ((List.pairwise_cons.mp h).1 entry hentry)
  | case3 k v rest key value hlt heq =>
      have hkey := beq_iff_eq.mp heq
      rw [hkey]
      exact List.pairwise_cons.mpr (List.pairwise_cons.mp h)
  | case4 k v rest key value hlt hne ih =>
      obtain ⟨hfirst, hrest⟩ := List.pairwise_cons.mp h
      refine List.pairwise_cons.mpr ⟨?_, ih hrest⟩
      intro entry hentry
      rcases mem_set hentry with rfl | hentry
      · exact Std.lt_of_le_of_ne hlt fun hsame => hne (beq_iff_eq.mpr hsame.symm)
      · exact hfirst entry hentry

/-- The first entry has the least key. -/
theorem Sorted.lt_of_get?
    {first : String × Value}
    (h : Sorted (first :: fields))
    (hother : get? (first :: fields) key = some value) :
    (key = first.1 ∧ value = first.2) ∨ first.1 < key := by
  rw [get?_cons] at hother
  split at hother
  · rename_i hkey
    exact .inl ⟨hkey, (Option.some_inj.mp hother).symm⟩
  · exact .inr ((List.pairwise_cons.mp h).1 _ (mem_of_get? hother))

/-- The entry with the least key comes first. -/
theorem Sorted.eq_cons
    (h : fields.Sorted)
    (hvalue : fields.get? key = some value)
    (hleast : ∀ other, (fields.get? other).isSome → other = key ∨ key < other) :
    ∃ rest, fields = (key, value) :: rest := by
  cases fields with
  | nil => cases hvalue
  | cons first rest =>
      have hfirst : get? (first :: rest) first.1 = some first.2 := by
        rw [get?_cons, if_pos rfl]
      rcases h.lt_of_get? hvalue with ⟨rfl, rfl⟩ | hlt
      · exact ⟨rest, rfl⟩
      · rcases hleast first.1 (Option.isSome_of_eq_some hfirst) with hkey | hgt
        · exact absurd (hkey ▸ hlt) (String.lt_irrefl _)
        · exact absurd (String.lt_trans hlt hgt) (String.lt_irrefl _)

theorem Sorted.foldl_set (h : fields.Sorted) (entries : List (String × Value)) :
    Sorted (entries.foldl (fun fields (key, value) => Fields.set fields key value) fields) := by
  induction entries generalizing fields with
  | nil => exact h
  | cons entry entries ih => exact ih (h.set entry.1 entry.2)

theorem get?_foldl_set
    {entries : List (String × Value)}
    (h : get? (entries.foldl (fun fields (key, value) => set fields key value) fields) key =
      some value) :
    (key, value) ∈ entries ∨ fields.get? key = some value := by
  induction entries generalizing fields with
  | nil => exact .inr h
  | cons entry entries ih =>
      rcases ih h with h | h
      · exact .inl (List.mem_cons_of_mem _ h)
      · rw [get?_set] at h
        split at h
        · rename_i hkey
          rw [hkey, ← Option.some_inj.mp h]
          exact .inl List.mem_cons_self
        · exact .inr h

theorem layer_ofList
    {entries : List (String × Value)}
    (h : ∀ entry ∈ entries, entry.2.Sorted) :
    (Fields.ofList entries).Layer where
  sorted := Sorted.foldl_set List.Pairwise.nil entries
  values _ _ hvalue := h _ ((get?_foldl_set hvalue).resolve_right nofun)

/-! ### Laying over -/

theorem over_cons (key : String) (value : Value) (rest lower : Fields) :
    Fields.over ((key, value) :: rest) lower =
      Fields.over rest (lower.set key (value.onto (lower.get? key))) := by
  rw [Fields.over]
  cases lower.get? key with
  | none => rfl
  | some below => rfl

theorem Sorted.over (h : lower.Sorted) (upper : Fields) : (Fields.over upper lower).Sorted := by
  induction upper generalizing lower with
  | nil =>
      rw [Fields.over]
      exact h
  | cons entry rest ih =>
      rw [over_cons]
      exact ih (h.set _ _)

/-- What is found where one dictionary lies over another. -/
theorem get?_over (h : upper.Sorted) (lower : Fields) (key : String) :
    (Fields.over upper lower).get? key =
      match upper.get? key with
      | some value => some (value.onto (lower.get? key))
      | none => lower.get? key := by
  induction upper generalizing lower with
  | nil =>
      rw [Fields.over]
      rfl
  | cons entry rest ih =>
      obtain ⟨k, v⟩ := entry
      obtain ⟨hfirst, hrest⟩ := List.pairwise_cons.mp h
      rw [over_cons, ih hrest, get?_set, get?_cons]
      by_cases hkey : key = k
      · have hnone : get? rest key = none := by
          rw [get?_eq_none_iff]
          rintro entry hentry rfl
          exact String.lt_irrefl _ (hkey ▸ hfirst entry hentry)
        rw [hnone, if_pos hkey, if_pos hkey, hkey]
      · rw [if_neg hkey, if_neg hkey]

theorem isSome_get?_over (h : upper.Sorted) :
    ((Fields.over upper lower).get? key).isSome ↔
      (upper.get? key).isSome ∨ (lower.get? key).isSome := by
  rw [get?_over h]
  cases upper.get? key with
  | none => simp
  | some value => simp

end Fields

/-- Only two dictionaries are merged. -/
theorem Value.over_of_not_dicts
    {value below : Value}
    (h : ¬∃ upper lower, value = .dict upper ∧ below = .dict lower) :
    value.over below = value := by
  rw [Value.over]
  rintro upper lower rfl rfl
  exact h ⟨upper, lower, rfl, rfl⟩

theorem Value.Sorted.onto
    {value : Value}
    {below : Option Value}
    (h : value.Sorted)
    (hbelow : ∀ other, below = some other → other.Sorted) :
    (value.onto below).Sorted := by
  cases below with
  | none => exact h
  | some below =>
      change (value.over below).Sorted
      by_cases hdicts : ∃ upper lower, value = .dict upper ∧ below = .dict lower
      · obtain ⟨upper, lower, rfl, rfl⟩ := hdicts
        rw [Value.over]
        exact sorted_dict ((hbelow _ rfl lower rfl).over upper)
      · rw [Value.over_of_not_dicts hdicts]
        exact h

theorem Fields.Layer.over
    {upper lower : Fields}
    (hupper : upper.Layer)
    (hlower : lower.Layer) :
    (Fields.over upper lower).Layer where
  sorted := hlower.sorted.over upper
  values key value h := by
    rw [get?_over hupper.sorted] at h
    split at h
    · rename_i v hv
      rw [← Option.some_inj.mp h]
      exact (hupper.values key v hv).onto (hlower.values key)
    · exact hlower.values key value h

theorem Fields.layer_nil : Fields.Layer [] where
  sorted := List.Pairwise.nil
  values _ _ := nofun

end Config
end EsModules
