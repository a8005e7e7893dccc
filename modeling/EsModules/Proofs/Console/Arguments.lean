import EsModules.Console.Arguments
import EsModules.Proofs.Catalog

/-!
# Options are checked

Every option of a command line that is accepted is one of those that the command has, and its value
has passed the check for it (`checked_of_scanWords`).
-/

namespace EsModules
namespace Console

/-- The options belong to the signature, and their values have passed the checks. -/
def Given.Checked (g : Signature) (given : Given) : Prop :=
  ∀ option ∈ given.options,
    ∃ spec ∈ g.options, spec.id = option.1 ∧ spec.kind.check option.2 = .ok ()

namespace Scan

/-- What has been accepted is checked, and an option that waits belongs to the signature. -/
structure Checked (g : Signature) (s : Scan) : Prop where
  given : s.given.Checked g
  pending : ∀ spec value, s.pending = .option spec value → spec ∈ g.options

variable {g : Signature} {s after : Scan} {spec : OptionSpec} {value : String}

/-- Where no option waits, nothing else is to be known. -/
theorem Checked.of_given
    (h : s.given.Checked g)
    (hpending : ∀ spec value, s.pending ≠ .option spec value) :
    s.Checked g :=
  ⟨h, fun spec value hoption => absurd hoption (hpending spec value)⟩

theorem Checked.acceptOption
    (h : s.Checked g)
    (hspec : spec ∈ g.options)
    (haccept : Scan.acceptOption spec value s = .ok after) :
    after.Checked g := by
  unfold Scan.acceptOption at haccept
  split at haccept
  · cases haccept
  · obtain ⟨_, hcheck, ⟨⟩⟩ := bind_eq_ok.mp haccept
    refine ⟨List.forall_mem_append.mpr ⟨h.given, ?_⟩, h.pending⟩
    exact List.forall_mem_singleton.mpr ⟨spec, hspec, rfl, hcheck⟩

theorem Checked.settle (h : s.Checked g) (hsettle : s.settle = .ok after) : after.Checked g := by
  have hdone : Scan.Checked g { s with pending := .none } :=
    .of_given h.given fun _ _ hpending => nomatch hpending
  unfold Scan.settle at hsettle
  extract_lets done at hsettle
  split at hsettle
  · exact Except.ok.inj hsettle ▸ hdone
  · cases hsettle
  · rename_i spec value hpending
    exact hdone.acceptOption (h.pending _ _ hpending) hsettle
  · obtain ⟨_, _, ⟨⟩⟩ := bind_eq_ok.mp hsettle
    exact .of_given h.given fun _ _ hpending => nomatch hpending

theorem Checked.flag
    (h : s.Checked g)
    (hspec : spec ∈ g.options)
    (hflag : s.flag spec = .ok after) :
    after.Checked g := by
  obtain ⟨settled, hsettle, hflag⟩ := bind_eq_ok.mp hflag
  split at hflag
  · cases hflag
  · cases hflag
  · exact (h.settle hsettle).acceptOption hspec hflag

theorem Checked.attached
    (h : s.Checked g)
    (hspec : spec ∈ g.options)
    (hattached : s.attached spec value = .ok after) :
    after.Checked g := by
  obtain ⟨settled, hsettle, haccept⟩ := bind_eq_ok.mp hattached
  exact (h.settle hsettle).acceptOption hspec haccept

theorem Checked.await
    (h : s.Checked g)
    (hspec : spec ∈ g.options)
    (hawait : s.await spec = .ok after) :
    after.Checked g := by
  obtain ⟨settled, hsettle, ⟨⟩⟩ := bind_eq_ok.mp hawait
  refine ⟨(h.settle hsettle).given, ?_⟩
  rintro _ _ ⟨⟩
  exact hspec

theorem Checked.long
    {word : List Char}
    (h : s.Checked g)
    (hlong : s.long g word = .ok after) :
    after.Checked g := by
  unfold Scan.long at hlong
  extract_lets name value at hlong
  split at hlong
  · cases hlong
  · rename_i spec hfound
    have hspec : spec ∈ g.options := List.mem_of_find?_eq_some hfound
    split at hlong
    · exact h.flag hspec hlong
    · cases hlong
    · exact h.await hspec hlong
    · exact h.attached hspec hlong

theorem Checked.shorts
    {names : List Char}
    (h : s.Checked g)
    (hshorts : Scan.shorts g names s = .ok after) :
    after.Checked g := by
  induction names generalizing s with
  | nil =>
      cases hshorts
      exact h
  | cons c rest ih =>
      rw [Scan.shorts] at hshorts
      split at hshorts
      · cases hshorts
      · rename_i spec hfound
        have hspec : spec ∈ g.options := List.mem_of_find?_eq_some hfound
        split at hshorts
        · obtain ⟨flagged, hflag, hrest⟩ := bind_eq_ok.mp hshorts
          exact ih (h.flag hspec hflag) hrest
        · exact h.await hspec hshorts
        · exact h.attached hspec hshorts
        · exact h.attached hspec hshorts

theorem Checked.argument
    {word : String}
    (h : s.Checked g)
    (hargument : s.argument g word = .ok after) :
    after.Checked g := by
  unfold Scan.argument at hargument
  split at hargument
  · split at hargument
    · cases hargument
      exact .of_given h.given fun _ _ hpending => nomatch hpending
    · obtain ⟨settled, hsettle, ⟨⟩⟩ := bind_eq_ok.mp hargument
      exact .of_given (h.settle hsettle).given fun _ _ hpending => nomatch hpending
  · split at hargument
    · cases hargument
    · cases hargument

theorem Checked.word
    {text : String}
    (h : s.Checked g)
    (hword : s.word g text = .ok after) :
    after.Checked g := by
  unfold Scan.word at hword
  split at hword
  · exact h.argument hword
  · split at hword
    · cases hword
      exact ⟨h.given, h.pending⟩
    · exact h.long hword
    · exact h.shorts hword
    · split at hword
      · rename_i spec hpending
        cases hword
        refine ⟨h.given, ?_⟩
        rintro _ _ ⟨⟩
        exact h.pending spec none hpending
      · exact h.argument hword

theorem checked_start (g : Signature) : Scan.start.Checked g :=
  .of_given (List.forall_mem_nil _) fun _ _ hpending => nomatch hpending

end Scan

theorem checked_of_scanWords
    {g : Signature}
    {words : List String}
    {s : Scan}
    {given : Given}
    (hs : s.Checked g)
    (h : scanWords g words s = .ok given) :
    given.Checked g := by
  induction words generalizing s with
  | nil =>
      obtain ⟨settled, hsettle, ⟨⟩⟩ := bind_eq_ok.mp h
      exact (hs.settle hsettle).given
  | cons word rest ih =>
      obtain ⟨next, hword, hrest⟩ := bind_eq_ok.mp h
      exact ih (hs.word hword) hrest

/-- What stands behind the name of the command is checked. -/
theorem checked_of_parseArguments
    {words : List String}
    {i : Invocation}
    (h : parseArguments words = .ok i) :
    i.behind.Checked (.ofCommand i.command) := by
  have hcommand : ∀ {command : CommandName} {words : List String} {given : Given},
      scanCommand command words = .ok given → given.Checked (.ofCommand command) := by
    intro command words given hscan
    obtain ⟨found, hfound, hscan⟩ := bind_eq_ok.mp hscan
    obtain ⟨_, _, hscan⟩ := bind_eq_ok.mp hscan
    split at hscan
    · cases hscan
    · cases hscan
      exact checked_of_scanWords (Scan.checked_start _) hfound
  unfold parseArguments at h
  generalize Scan.start = s at h
  induction words generalizing s with
  | nil =>
      obtain ⟨settled, _, h⟩ := bind_eq_ok.mp h
      extract_lets given finish at h
      split at h
      · cases h
      · cases h
  | cons word rest ih =>
      rw [scanFront] at h
      split at h
      · split at h
        · obtain ⟨behind, hbehind, h⟩ := bind_eq_ok.mp h
          obtain ⟨settled, _, h⟩ := bind_eq_ok.mp h
          obtain ⟨_, _, ⟨⟩⟩ := bind_eq_ok.mp h
          exact hcommand hbehind
        · obtain ⟨next, _, h⟩ := bind_eq_ok.mp h
          exact ih next h
      · split at h
        · cases h
        · obtain ⟨next, _, h⟩ := bind_eq_ok.mp h
          exact ih next h

/-- A registration name on the command line is one that may be used. -/
theorem checkRegistryName_of_parseArguments
    {words : List String}
    {i : Invocation}
    {name : String}
    (h : parseArguments words = .ok i)
    (hname : i.behind.value? .registryName = some name) :
    ∃ checked, checkRegistryName name = .ok checked := by
  have hoption : (OptionId.registryName, name) ∈ i.behind.options := by
    obtain ⟨option, hoption, rfl⟩ := List.mem_map.mp (List.mem_of_head? hname)
    obtain ⟨hmem, hid⟩ := List.mem_filter.mp hoption
    rw [← beq_iff_eq.mp hid]
    exact hmem
  obtain ⟨spec, hspec, hid, hcheck⟩ := checked_of_parseArguments h _ hoption
  have hkind : ∀ command, ∀ spec ∈ (Signature.ofCommand command).options,
      spec.id = .registryName → spec.kind = .registryName := by
    intro command
    cases command <;> decide
  rw [hkind _ spec hspec hid] at hcheck
  cases hchecked : checkRegistryName name with
  | ok checked => exact ⟨checked, rfl⟩
  | error e =>
      simp only [ValueKind.check, hchecked] at hcheck
      cases hcheck

end Console
end EsModules
