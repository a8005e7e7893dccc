import EsModules.Config.Project
import EsModules.Proofs.Config.Dictionary

/-!
# Reading merged values

A value that lies over another is read as if it stood alone, with one exception: two dictionaries
are merged before the first key is read, so that a key of the lower one may come first
(`Shadowed`), and then the lower one is read (`layered_variant`).
-/

namespace EsModules
namespace Config

/-- A dictionary lies over one that has a key in front of all keys of the upper one. -/
def Shadowed (value : Value) (below : Option Value) : Prop :=
  ∃ upper lower,
    value = .dict upper ∧ below = some (.dict lower) ∧
      ∃ key, (Fields.get? lower key).isSome ∧
        ∀ other, (Fields.get? upper other).isSome → key < other

/-- What is read from a value on top of another: the upper one, unless it is shadowed. -/
structure Resolves {α : Type} (decoder : Decoder α) (value : Value) (below : Option Value) (a : α) :
    Prop where
  upper : ¬Shadowed value below → decoder value = .ok a
  lower : Shadowed value below →
    decoder value ≠ .ok a ∧ ∃ other, below = some other ∧ decoder other = .ok a

/-- Reading a merged value resolves the two values that were merged. -/
def Decoder.Layered {α : Type} (decoder : Decoder α) : Prop :=
  ∀ value below a, value.Sorted → (∀ other, below = some other → other.Sorted) →
    decoder (value.onto below) = .ok a → Resolves decoder value below a

namespace Decoder

variable {α : Type} {decoder : Decoder α}

/-- No dictionary is read. -/
def Flat (decoder : Decoder α) : Prop :=
  ∀ fields a, decoder (.dict fields) ≠ .ok a

end Decoder

/-- Unless both are dictionaries, the upper value stays as it is. -/
theorem Value.onto_cases (value : Value) (below : Option Value) :
    (∃ upper lower, value = .dict upper ∧ below = some (.dict lower) ∧
      value.onto below = .dict (Fields.over upper lower)) ∨
    value.onto below = value ∧ ¬Shadowed value below := by
  by_cases hdicts : ∃ upper lower, value = .dict upper ∧ below = some (.dict lower)
  · obtain ⟨upper, lower, rfl, rfl⟩ := hdicts
    refine .inl ⟨upper, lower, rfl, rfl, ?_⟩
    rw [Value.onto, Value.over]
  · refine .inr ⟨?_, ?_⟩
    · cases below with
      | none => rfl
      | some below =>
          apply Value.over_of_not_dicts
          rintro ⟨upper, lower, hupper, hlower⟩
          exact hdicts ⟨upper, lower, hupper, congrArg some hlower⟩
    · rintro ⟨upper, lower, hupper, hlower, _⟩
      exact hdicts ⟨upper, lower, hupper, hlower⟩

namespace Decoder

variable {α : Type} {decoder : Decoder α}

theorem Flat.onto_eq
    (h : decoder.Flat)
    {value : Value}
    {below : Option Value}
    {a : α}
    (hread : decoder (value.onto below) = .ok a) :
    value.onto below = value ∧ ¬Shadowed value below := by
  rcases value.onto_cases below with ⟨upper, lower, rfl, rfl, hmerged⟩ | hupper
  · rw [hmerged] at hread
    exact absurd hread (h _ a)
  · exact hupper

theorem Flat.layered (h : decoder.Flat) : decoder.Layered := by
  intro value below a _ _ hread
  obtain ⟨hvalue, hplain⟩ := h.onto_eq hread
  rw [hvalue] at hread
  exact ⟨fun _ => hread, fun hshadowed => absurd hshadowed hplain⟩

theorem flat_textAs (expected : String) : (textAs expected).Flat := nofun

theorem flat_boolean : boolean.Flat := nofun

theorem flat_byte : byte.Flat := nofun

theorem flat_nothing : nothing.Flat := nofun

theorem flat_list (decoder : Decoder α) : (list decoder).Flat := nofun

theorem map_eq_ok {β : Type} {f : α → β} {result : Except FieldFault α} {b : β} :
    f <$> result = .ok b ↔ ∃ a, result = .ok a ∧ f a = b := by
  cases result with
  | ok a => exact ⟨fun h => ⟨a, rfl, Except.ok.inj h⟩, by rintro ⟨_, ⟨⟩, rfl⟩; rfl⟩
  | error e => exact ⟨nofun, nofun⟩

theorem Flat.map {β : Type} (h : decoder.Flat) (f : α → β) :
    Flat fun value => f <$> decoder value := by
  intro fields b hread
  obtain ⟨a, ha, _⟩ := map_eq_ok.mp hread
  exact h fields a ha

theorem Flat.optional (h : decoder.Flat) : (optional decoder).Flat :=
  h.map some

theorem within_eq_ok {key : String} {result : Except FieldFault α} {a : α} :
    within key result = .ok a ↔ result = .ok a := by
  cases result with
  | ok b => exact Iff.rfl
  | error e => exact ⟨nofun, nofun⟩

/-! ### Words -/

variable {typeName : String} {known : List (String × Option α × Decoder α)} {a : α}

theorem variant_dict_eq_ok {fields : Fields} (h : variant typeName known (.dict fields) = .ok a) :
    ∃ entry ∈ known, ∃ value rest,
      fields = (entry.1, value) :: rest ∧ entry.2.2 value = .ok a := by
  cases fields with
  | nil => cases h
  | cons first rest =>
      obtain ⟨word, value⟩ := first
      have hread := within_eq_ok.mp h
      split at hread
      · rename_i decode hfound
        have hword := List.find?_some hfound
        rw [beq_iff_eq] at hword
        subst hword
        exact ⟨_, List.mem_of_find?_eq_some hfound, value, rest, rfl, hread⟩
      · cases hread

section Merged

variable {upper lower : Fields} {entry : String × Option α × Decoder α} {w : Value}
  (hleast : ∀ key, (Fields.get? upper key).isSome ∨ (Fields.get? lower key).isSome →
    key = entry.1 ∨ entry.1 < key)

include hleast

/-- The upper dictionary has the first key. -/
theorem resolves_of_upper
    (hsorted : upper.Sorted)
    (hfirst : upper.get? entry.1 = some w)
    (hread : ∀ rest, variant typeName known (.dict ((entry.1, w) :: rest)) = .ok a) :
    Resolves (variant typeName known) (.dict upper) (some (.dict lower)) a where
  upper _ := by
    obtain ⟨rest, rfl⟩ := hsorted.eq_cons hfirst fun key hkey => hleast key (.inl hkey)
    exact hread rest
  lower := by
    rintro ⟨_, _, ⟨⟩, ⟨⟩, key, hkey, hbefore⟩
    have hlt := hbefore entry.1 (Option.isSome_of_eq_some hfirst)
    rcases hleast key (.inr hkey) with rfl | hgt
    · exact absurd hlt (String.lt_irrefl _)
    · exact absurd (String.lt_trans hlt hgt) (String.lt_irrefl _)

/-- Only the lower dictionary has the first key. -/
theorem resolves_of_lower
    (hword : ∀ other ∈ known, ∀ v, other.2.2 v = .ok a → other.1 = entry.1)
    (hsorted : lower.Sorted)
    (habsent : upper.get? entry.1 = none)
    (hfirst : lower.get? entry.1 = some w)
    (hread : ∀ rest, variant typeName known (.dict ((entry.1, w) :: rest)) = .ok a) :
    Resolves (variant typeName known) (.dict upper) (some (.dict lower)) a where
  upper hplain := by
    refine absurd ⟨upper, lower, rfl, rfl, entry.1, Option.isSome_of_eq_some hfirst, ?_⟩ hplain
    intro other hother
    refine (hleast other (.inl hother)).resolve_left ?_
    rintro rfl
    rw [habsent] at hother
    cases hother
  lower _ := by
    constructor
    · intro hupper
      obtain ⟨other, hother, v, rest, rfl, hv⟩ := variant_dict_eq_ok hupper
      rw [Fields.get?_cons, if_pos (hword other hother v hv).symm] at habsent
      cases habsent
    · obtain ⟨rest, rfl⟩ := hsorted.eq_cons hfirst fun key hkey => hleast key (.inr hkey)
      exact ⟨_, rfl, hread rest⟩

end Merged

/-- Of two dictionaries of words the one with the first key is read. -/
theorem layered_variant
    (hflat : ∀ entry ∈ known, entry.2.2.Flat)
    (hword : ∀ entry ∈ known, ∀ other ∈ known, ∀ v w a,
      entry.2.2 v = .ok a → other.2.2 w = .ok a → entry.1 = other.1) :
    (variant typeName known).Layered := by
  intro value below a hvalue hbelow hread
  rcases value.onto_cases below with ⟨upper, lower, rfl, rfl, hmerged⟩ | ⟨hsame, hplain⟩
  · have hupper := hvalue upper rfl
    have hlower := hbelow _ rfl lower rfl
    rw [hmerged] at hread
    obtain ⟨entry, hentry, w, rest, hfirst, hw⟩ := variant_dict_eq_ok hread
    have hget : (Fields.over upper lower).get? entry.1 = some w := by
      rw [hfirst, Fields.get?_cons, if_pos rfl]
    have hleast : ∀ key, (Fields.get? upper key).isSome ∨ (Fields.get? lower key).isSome →
        key = entry.1 ∨ entry.1 < key := by
      intro key hkey
      obtain ⟨v, hv⟩ := Option.isSome_iff_exists.mp ((Fields.isSome_get?_over hupper).mpr hkey)
      have hsorted := hlower.over upper
      rw [hfirst] at hv hsorted
      exact (hsorted.lt_of_get? hv).imp_left And.left
    -- The keys behind the first one do not count.
    have hbehind : ∀ rest, variant typeName known (.dict ((entry.1, w) :: rest)) = .ok a := by
      rw [hfirst] at hread
      exact fun _ => hread
    rw [Fields.get?_over hupper] at hget
    cases hu : Fields.get? upper entry.1 with
    | some u =>
        rw [hu] at hget
        have hmerge : u.onto (Fields.get? lower entry.1) = w := Option.some_inj.mp hget
        have huw : u = w := by
          rw [← hmerge] at hw
          rw [← hmerge, ((hflat entry hentry).onto_eq hw).1]
        exact resolves_of_upper hleast hupper (huw ▸ hu) hbehind
    | none =>
        rw [hu] at hget
        exact resolves_of_lower hleast (fun other hother v hv => hword other hother entry hentry
          v w a hv hw) hlower hu hget hbehind
  · rw [hsame] at hread
    exact ⟨fun _ => hread, fun hshadowed => absurd hshadowed hplain⟩

theorem layered_word (typeName : String) (name : α → String) (all : List α) :
    (word typeName name all).Layered := by
  apply layered_variant
  · intro entry hentry
    obtain ⟨b, _, rfl⟩ := List.mem_map.mp hentry
    exact flat_nothing.map _
  · intro entry hentry other hother v w a hv hw
    obtain ⟨b, _, rfl⟩ := List.mem_map.mp hentry
    obtain ⟨c, _, rfl⟩ := List.mem_map.mp hother
    obtain ⟨_, _, rfl⟩ := map_eq_ok.mp hv
    obtain ⟨_, _, rfl⟩ := map_eq_ok.mp hw
    rfl

theorem layered_indent : Layered indentDecoder := by
  apply layered_variant
  · refine List.forall_mem_cons.mpr ⟨flat_nothing.map _, ?_⟩
    exact List.forall_mem_singleton.mpr (flat_byte.map _)
  · intro entry hentry other hother v w a hv hw
    rcases List.mem_pair.mp hentry with rfl | rfl <;> rcases List.mem_pair.mp hother with rfl | rfl
    · rfl
    · obtain ⟨_, _, rfl⟩ := map_eq_ok.mp hv
      obtain ⟨_, _, ⟨⟩⟩ := map_eq_ok.mp hw
    · obtain ⟨_, _, rfl⟩ := map_eq_ok.mp hv
      obtain ⟨_, _, ⟨⟩⟩ := map_eq_ok.mp hw
    · rfl

/-- No word of an indentation comes before `spaces`. -/
theorem not_shadowed_spaces
    {width : Value}
    {below : Option Value}
    {style : IndentStyle}
    (hbelow : ∀ other, below = some other → other.Sorted)
    (h : indentDecoder (Value.onto (.dict [("spaces", width)]) below) = .ok style) :
    ¬Shadowed (.dict [("spaces", width)]) below := by
  rintro ⟨upper, lower, ⟨⟩, rfl, key, hkey, hbefore⟩
  have hlt : key < "spaces" := hbefore "spaces" rfl
  rw [Value.onto, Value.over] at h
  have hsorted := (hbelow _ rfl lower rfl).over [("spaces", width)]
  obtain ⟨v, hv⟩ := Option.isSome_iff_exists.mp
    ((Fields.isSome_get?_over (List.pairwise_singleton _ ("spaces", width))).mpr (.inr hkey))
  obtain ⟨entry, hentry, w, rest, hfirst, _⟩ := variant_dict_eq_ok h
  rw [hfirst] at hv hsorted
  have hentry' : entry.1 < "spaces" := by
    rcases hsorted.lt_of_get? hv with ⟨rfl, _⟩ | hgt
    · exact hlt
    · exact String.lt_trans hgt hlt
  rcases List.mem_pair.mp hentry with rfl | rfl
  · exact absurd hentry' (by decide)
  · exact absurd hentry' (by decide)

end Decoder

end Config
end EsModules
