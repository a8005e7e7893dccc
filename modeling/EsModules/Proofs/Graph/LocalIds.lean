import EsModules.Proofs.Graph.RegistryKeys
import EsModules.Proofs.Path.Removal

/-!
# Identities of local modules

The identity of a local module is its cleaned path, so that two paths give one identity if and only
if they have the same normal form.  Whether the path begins with the mark of external modules is
asked before it is cleaned.  Cleaning brings the mark to the front where what stands before it can
be removed (`LeavesMark`); such an identity is taken for that of an external module, and its own
path is refused.
-/

namespace EsModules
namespace ModuleId

open EsModules.Path

/-- What is left of a relative path begins with the mark of external modules. -/
def LeavesMark (path : String) : Prop :=
  isAbsolute path = false ∧ ∃ name rest, NormalForm path (name :: rest) ∧ isMarked name = true

section Paths

variable {path : String} {id : ModuleId}

theorem ofPath_eq_ok_iff :
    ofPath path = .ok id ↔ path ≠ "" ∧ isMarked path = false ∧ id = ⟨clean path⟩ := by
  unfold ofPath
  by_cases hempty : path = ""
  · simp [hempty]
  · by_cases hmark : isMarked path = true
    · simp [hempty, hmark]
    · simp only [hempty, hmark, beq_iff_eq, if_false, ne_eq, not_false_eq_true, true_and,
        Except.ok.injEq, Bool.false_eq_true]
      exact eq_comm

/-- The mark is at the front of a cleaned path if it is at the front of what removing leaves. -/
theorem isMarked_clean_iff (path : String) : isMarked (clean path) = true ↔ LeavesMark path := by
  obtain ⟨rest, hrest⟩ := exists_normalForm path
  have hsteps := hrest.steps_eq
  rw [isMarked_iff]
  constructor
  · rintro ⟨name, hhead, hname⟩
    by_cases hnil : normalize (components path) = []
    · rw [clean_of_normalize_nil hnil] at hhead
      cases hhead
    · rw [components_clean hnil, hsteps] at hhead
      cases habsolute : isAbsolute path with
      | true =>
          rw [habsolute] at hhead
          cases hhead
      | false =>
          rw [habsolute] at hhead
          have hhead : (rest.filterMap component?).head? = some (.normal name) := hhead
          cases rest with
          | nil => cases hhead
          | cons first rest =>
              have hread := component?_of_final hrest.final List.mem_cons_self
              rw [List.filterMap_cons_some hread, List.head?_cons, Option.some_inj] at hhead
              by_cases hup : first = ".."
              · rw [if_pos hup] at hhead
                cases hhead
              · rw [if_neg hup] at hhead
                cases hhead
                exact ⟨habsolute, _, rest, hrest, hname⟩
  · rintro ⟨habsolute, name, rest', hform, hname⟩
    have hnamed : normalize (components path) =
        .normal name :: rest'.filterMap component? := by
      rw [hform.steps_eq, habsolute, rootedSteps, List.filterMap_cons,
        component?_of_isMarked hname]
      rfl
    refine ⟨name, ?_, hname⟩
    rw [components_clean (by simp [hnamed]), hnamed]
    rfl

end Paths

/-- The identity of a local module is taken for that of an external one if and only if cleaning
brings the mark to the front.  All other identities are given by their own paths, and two paths give
one identity if and only if they have the same normal form. -/
theorem ofPath_canonical_iff
    {path other : String}
    {id id' : ModuleId}
    (hid : ofPath path = .ok id)
    (hother : ofPath other = .ok id') :
    (id.isExternal = true ↔ LeavesMark path) ∧
    (ofPath id.path =
      if id.isExternal then .error (.reservedPrefix id.path) else .ok id) ∧
    (id.same id' = true ↔ SameNormalForm path other) ∧
    (id = id' ↔ SameNormalForm path other) := by
  obtain ⟨-, -, rfl⟩ := ofPath_eq_ok_iff.mp hid
  obtain ⟨-, -, rfl⟩ := ofPath_eq_ok_iff.mp hother
  have hequal : (⟨clean path⟩ : ModuleId) = ⟨clean other⟩ ↔ SameNormalForm path other := by
    rw [ModuleId.mk.injEq, clean_eq_clean_iff, sameNormalForm_iff]
  refine ⟨isMarked_clean_iff path, ?_, ?_, hequal⟩
  · unfold isExternal
    cases hmark : isMarked (clean path) with
    | true =>
        simp [ofPath, clean_ne_empty, hmark]
    | false =>
        exact ofPath_eq_ok_iff.mpr ⟨clean_ne_empty path, hmark, by rw [clean_clean]⟩
  · rw [← hequal, same_iff]
    constructor
    · intro hsteps
      rw [← clean_clean path, ← clean_clean other, clean_congr hsteps]
    · intro h
      rw [h]

/-- The mark comes to the front behind a dot, and behind a name that is taken back.  The two paths
have the same normal form, so they give one identity. -/
theorem ofPath_canonical_iff_hiddenMark :
    ofPath "./external:rsvp" = .ok ⟨"external:rsvp"⟩ ∧
    ofPath "lib/..//external:rsvp" = .ok ⟨"external:rsvp"⟩ ∧
    LeavesMark "./external:rsvp" ∧
    SameNormalForm "./external:rsvp" "lib/..//external:rsvp" := by
  have hdot : ofPath "./external:rsvp" = .ok ⟨"external:rsvp"⟩ := by decide
  have hpair : ofPath "lib/..//external:rsvp" = .ok ⟨"external:rsvp"⟩ := by decide
  obtain ⟨hexternal, -, -, hequal⟩ := ofPath_canonical_iff hdot hpair
  exact ⟨hdot, hpair, hexternal.mp (by decide), hequal.mp rfl⟩

/-- An identity that a local path gives is taken for that of an external module, and the path of
the identity gives none. -/
theorem local_id_external :
    ofPath "./external:rsvp" = .ok (external "rsvp") ∧
    (external "rsvp").isExternal = true ∧
    ofPath (external "rsvp").path = .error (.reservedPrefix "external:rsvp") := by
  decide

end ModuleId
end EsModules
