import EsModules.Proofs.Graph.Growth
import EsModules.Proofs.Graph.Lookup

/-!
# Loading modules

Loading a file, resolving an import and linking the imports of a module call one another.  `Runs`
says how such a task ends and which graph it leaves, whether it fails or not.

Whatever happens, the modules that were in the graph stay there as they were, apart from the one
whose imports are being linked, and new ones come behind them under identities of their own.  If the
task succeeds, all of these are settled.
-/

namespace EsModules

/-- A module with some more imports linked, and settled if that is all. -/
def GraphModule.advance
    (m : GraphModule)
    (links : List (String × ModuleId))
    (done : Bool) :
    GraphModule :=
  { m with dependencies := m.dependencies ++ links, resolved := m.resolved || done }

namespace Graph

/-- What a step answers. -/
def outcome {α : Type} (step : GraphStep α) (g : Graph) : Except GraphError α :=
  (step.run.run g).1

/-- A step answers and leaves what is said of both. -/
def Ends {α : Type} (step : GraphStep α) (g : Graph)
    (P : Except GraphError α → Graph → Prop) : Prop :=
  P (outcome step g) (after step g)

namespace Ends

variable {α β : Type} {g : Graph} {P : Except GraphError α → Graph → Prop}

theorem mono
    {step : GraphStep α}
    {Q : Except GraphError α → Graph → Prop}
    (h : Ends step g Q)
    (himp : ∀ out g', Q out g' → P out g') :
    Ends step g P :=
  himp _ _ h

theorem pure {a : α} (h : P (.ok a) g) : Ends (Pure.pure a) g P :=
  h

theorem throw {e : GraphError} (h : P (.error e) g) : Ends (MonadExcept.throw e) g P :=
  h

theorem pure_bind {b : β} {next : β → GraphStep α} (h : Ends (next b) g P) :
    Ends (Pure.pure b >>= next) g P :=
  h

theorem get {next : Graph → GraphStep α} (h : Ends (next g) g P) :
    Ends (MonadState.get >>= next) g P :=
  h

theorem modify {f : Graph → Graph} {next : Unit → GraphStep α} (h : Ends (next ()) (f g) P) :
    Ends (modify f >>= next) g P :=
  h

theorem bind
    {step : GraphStep β}
    {next : β → GraphStep α}
    {Q : Except GraphError β → Graph → Prop}
    (hstep : Ends step g Q)
    (hfail : ∀ e g', Q (.error e) g' → P (.error e) g')
    (hnext : ∀ b g', Q (.ok b) g' → Ends (next b) g' P) :
    Ends (step >>= next) g P := by
  unfold Ends outcome after at *
  simp only [ExceptT.run_bind, StateT.run_bind]
  cases hrun : step.run.run g with
  | mk out g' =>
      rw [hrun] at hstep
      cases out with
      | error e => exact hfail e g' hstep
      | ok b => exact hnext b g' hstep

end Ends

/-- The three kinds of work that load modules. -/
inductive Task where
  /-- Load the module of a file. -/
  | load (path : String)
  /-- Find the module that an import stands for. -/
  | resolve (specifier : String) (importer : ModuleId)
  /-- Link imports of a module, one after the other. -/
  | link (id : ModuleId) (specifiers : List String)

/-- How a task ends, and the graph that it leaves.  At most `depth` modules that are not in the
graph yet are entered one inside the other. -/
inductive Runs : Nat → Task → Graph → Except GraphError ModuleId → Graph → Prop where
  | exhausted (path : String) (g : Graph) :
      Runs 0 (.load path) g (.error (.missingModule path)) g
  | refused
      {depth : Nat} {path : String} {e : ModuleIdError} {g : Graph}
      (hid : ModuleId.ofPath path = .error e) :
      Runs (depth + 1) (.load path) g (.error (.moduleId e)) g
  | cached
      {depth : Nat} {path : String} {id : ModuleId} {m : GraphModule} {g : Graph}
      (hid : ModuleId.ofPath path = .ok id)
      (hm : g.module? id = some m) :
      Runs (depth + 1) (.load path) g (.ok id) g
  | unreadable
      {depth : Nat} {path : String} {id : ModuleId} {e : GraphError} {g : Graph}
      (hid : ModuleId.ofPath path = .ok id)
      (hnew : g.module? id = none)
      (hread : g.readModule id path = .error e) :
      Runs (depth + 1) (.load path) g (.error e) g
  | load
      {depth : Nat} {path : String} {id : ModuleId} {m : GraphModule} {g g' : Graph}
      {out : Except GraphError ModuleId}
      (hid : ModuleId.ofPath path = .ok id)
      (hnew : g.module? id = none)
      (hread : g.readModule id path = .ok m)
      (hlink : Runs depth (.link id m.catalog.sources) (addModule m g) out g') :
      Runs (depth + 1) (.load path) g out g'
  | unresolved
      {depth : Nat} {specifier : String} {importer : ModuleId} {g : Graph}
      (hto : g.resolution? specifier importer = none) :
      Runs depth (.resolve specifier importer) g
        (.error (.unresolvedImport specifier (g.displayName importer))) g
  | provided
      {depth : Nat} {specifier name : String} {importer : ModuleId} {m : GraphModule} {g : Graph}
      (hto : g.resolution? specifier importer = some (.external name))
      (hm : g.module? (.external name) = some m) :
      Runs depth (.resolve specifier importer) g (.ok (.external name)) g
  | provide
      {depth : Nat} {specifier name : String} {importer : ModuleId} {g : Graph}
      (hto : g.resolution? specifier importer = some (.external name))
      (hnew : g.module? (.external name) = none) :
      Runs depth (.resolve specifier importer) g (.ok (.external name))
        (addModule (.ofExternal name) g)
  | file
      {depth : Nat} {specifier path : String} {importer : ModuleId} {g g' : Graph}
      {out : Except GraphError ModuleId}
      (hto : g.resolution? specifier importer = some (.file path))
      (hload : Runs depth (.load path) g out g') :
      Runs depth (.resolve specifier importer) g out g'
  | settle (depth : Nat) (id : ModuleId) (g : Graph) :
      Runs depth (.link id []) g (.ok id)
        (updateModule id (fun m => { m with resolved := true }) g)
  | blocked
      {depth : Nat} {id : ModuleId} {specifier : String} {rest : List String} {g g' : Graph}
      {e : GraphError}
      (hresolve : Runs depth (.resolve specifier id) g (.error e) g') :
      Runs depth (.link id (specifier :: rest)) g (.error e) g'
  | link
      {depth : Nat} {id dependency : ModuleId} {specifier : String} {rest : List String}
      {g g' g'' : Graph} {out : Except GraphError ModuleId}
      (hresolve : Runs depth (.resolve specifier id) g (.ok dependency) g')
      (hrest : Runs depth (.link id rest)
        (updateModule id
          (fun m => { m with dependencies := m.dependencies ++ [(specifier, dependency)] }) g')
        out g'') :
      Runs depth (.link id (specifier :: rest)) g out g''

theorem runs_resolveBy
    {depth : Nat}
    {load : String → GraphStep ModuleId}
    (hload : ∀ path g, Ends (load path) g (Runs depth (.load path) g))
    (specifier : String)
    (importer : ModuleId)
    (g : Graph) :
    Ends (resolveBy load specifier importer) g (Runs depth (.resolve specifier importer) g) := by
  apply Ends.get
  split
  · rename_i hto
    exact Ends.throw (.unresolved hto)
  · rename_i name hto
    cases hm : g.module? (.external name) with
    | none =>
        simp only [hm, Option.isNone_none, if_true]
        exact Ends.modify (Ends.pure (.provide hto hm))
    | some m =>
        simp only [hm, Option.isNone_some]
        exact Ends.pure (.provided hto hm)
  · rename_i path hto
    exact Runs.file hto (hload path g)

theorem runs_resolveImports
    {depth : Nat}
    {load : String → GraphStep ModuleId}
    (hload : ∀ path g, Ends (load path) g (Runs depth (.load path) g))
    (id : ModuleId)
    (specifiers : List String)
    (g : Graph) :
    Ends (resolveImports load id specifiers) g
      (fun out => Runs depth (.link id specifiers) g (out.map fun _ => id)) := by
  induction specifiers generalizing g with
  | nil => exact Runs.settle depth id g
  | cons specifier rest ih =>
      apply (runs_resolveBy hload specifier id g).bind
      · intro e g' hresolve
        exact .blocked hresolve
      · intro dependency g' hresolve
        apply Ends.modify
        exact Runs.link hresolve (ih _)

theorem runs_loadLocal (depth : Nat) (path : String) (g : Graph) :
    Ends (loadLocal depth path) g (Runs depth (.load path) g) := by
  induction depth generalizing path g with
  | zero => exact Ends.throw (.exhausted path g)
  | succ depth ih =>
      unfold loadLocal
      cases hid : ModuleId.ofPath path with
      | error e => exact Ends.throw (.refused hid)
      | ok id =>
          apply Ends.pure_bind
          apply Ends.get
          cases hm : g.module? id with
          | some m =>
              simp only [Option.isSome_some, if_true]
              exact Ends.pure (.cached hid hm)
          | none =>
              simp only [Option.isSome_none]
              cases hread : g.readModule id path with
              | error e => exact Ends.throw (.unreadable hid hm hread)
              | ok m =>
                  apply Ends.pure_bind
                  apply Ends.modify
                  apply (runs_resolveImports ih id m.catalog.sources (addModule m g)).bind
                  · intro e g' hlink
                    exact .load hid hm hread hlink
                  · intro _ g' hlink
                    exact Ends.pure (.load hid hm hread hlink)

theorem runs_resolveModule (specifier : String) (importer : ModuleId) (g : Graph) :
    Ends (resolveModule specifier importer) g
      (Runs g.loadingDepth (.resolve specifier importer) g) := by
  apply Ends.get
  exact runs_resolveBy (runs_loadLocal g.loadingDepth) specifier importer g

/-! ### What a task leaves as it was -/

variable {g g' : Graph} {depth : Nat} {task : Task} {out : Except GraphError ModuleId}

/-- Modules are added behind the others, under identities that were not in use. -/
structure Adds (g : Graph) (added : List GraphModule) (g' : Graph) : Prop where
  eq : g' = { g with modules := g.modules ++ added }
  fresh : ∀ m ∈ added, g.module? m.id = none

theorem Adds.nil (g : Graph) : g.Adds [] g where
  eq := by simp
  fresh := by simp

/-- A module that is alone with its identity among those before and behind it. -/
structure Alone
    (id : ModuleId)
    (front : List GraphModule)
    (m : GraphModule)
    (back : List GraphModule) :
    Prop where
  same : m.id.same id = true
  others : ∀ other ∈ front ++ back, other.id.same id = false

theorem updateModule_eq
    {id : ModuleId}
    {front back : List GraphModule}
    {m : GraphModule}
    (hg : g.modules = front ++ m :: back)
    (h : Alone id front m back)
    (f : GraphModule → GraphModule) :
    updateModule id f g = { g with modules := front ++ f m :: back } := by
  have hkeep : ∀ others : List GraphModule, (∀ other ∈ others, other.id.same id = false) →
      others.map (fun m => if m.id.same id then f m else m) = others := by
    intro others hothers
    conv_rhs => rw [← List.map_id others]
    apply List.map_congr_left
    intro other hother
    simp [hothers other hother]
  have hfront := hkeep front fun other hother => h.others other (List.mem_append_left _ hother)
  have hback := hkeep back fun other hother => h.others other (List.mem_append_right _ hother)
  unfold updateModule
  rw [hg, List.map_append, List.map_cons, hfront, hback, if_pos h.same]

/-- Modules added under new identities leave a module alone with its own. -/
theorem Alone.adds
    {id : ModuleId}
    {front back added : List GraphModule}
    {m : GraphModule}
    (h : Alone id front m back)
    (hg : g.modules = front ++ m :: back)
    (hadds : g.Adds added g') :
    Alone id front m (back ++ added) where
  same := h.same
  others := by
    intro other hother
    rw [← List.append_assoc] at hother
    rcases List.mem_append.mp hother with hother | hother
    · exact h.others other hother
    · by_contra hsame
      have hid : other.id.same id = true := by simpa using hsame
      have hnone := hadds.fresh other hother
      rw [module?_congr hid, module?_eq_none_iff] at hnone
      have hm := hnone m (by rw [hg]; simp)
      rw [h.same] at hm
      cases hm

theorem id_of_readModule
    {id : ModuleId}
    {path : String}
    {m : GraphModule}
    (h : g.readModule id path = .ok m) :
    m.id = id := by
  obtain ⟨_, _, _, _, _, _, rfl⟩ := readModule_eq_ok h
  rfl

/-- A module that was just read is alone behind the others. -/
theorem alone_of_readModule
    {id : ModuleId}
    {path : String}
    {m : GraphModule}
    (hnew : g.module? id = none)
    (hread : g.readModule id path = .ok m) :
    Alone id g.modules m [] where
  same := by
    rw [id_of_readModule hread]
    exact ModuleId.same_iff.mpr rfl
  others := by
    intro other hother
    rw [List.append_nil] at hother
    exact module?_eq_none_iff.mp hnew other hother

/-- What a task leaves of a graph.  The modules that were there stay as they are, except that the
one whose imports are linked goes on. -/
def Leaves (g : Graph) (out : Except GraphError ModuleId) (g' : Graph) : Task → Prop
  | .load _ | .resolve _ _ =>
      ∃ added, g.Adds added g' ∧ (out.isOk = true → ∀ m ∈ added, m.resolved = true)
  | .link id _ =>
      ∀ front m back, g.modules = front ++ m :: back → Alone id front m back →
        ∃ links added,
          g' = { g with modules := front ++ m.advance links out.isOk :: (back ++ added) } ∧
          (∀ a ∈ added, g.module? a.id = none) ∧
          (out.isOk = true → ∀ a ∈ added, a.resolved = true)

theorem Runs.leaves (h : Runs depth task g out g') : Leaves g out g' task := by
  induction h with
  | exhausted path g => exact ⟨[], .nil g, by simp⟩
  | refused hid => exact ⟨[], .nil _, by simp⟩
  | cached hid hm => exact ⟨[], .nil _, by simp⟩
  | unreadable hid hnew hread => exact ⟨[], .nil _, by simp⟩
  | @load depth path id m g g' out hid hnew hread hlink ih =>
      obtain ⟨links, added, hg', hfresh, hsettled⟩ :=
        ih g.modules m [] rfl (alone_of_readModule hnew hread)
      refine ⟨m.advance links out.isOk :: added, ⟨hg', ?_⟩, ?_⟩
      · intro a ha
        rcases List.mem_cons.mp ha with rfl | ha
        · show g.module? m.id = none
          rw [id_of_readModule hread]
          exact hnew
        · have hnone := hfresh a ha
          rw [module?_eq_none_iff] at hnone ⊢
          intro other hother
          exact hnone other (List.mem_append_left _ hother)
      · intro hok a ha
        rcases List.mem_cons.mp ha with rfl | ha
        · simp [GraphModule.advance, hok]
        · exact hsettled hok a ha
  | unresolved hto => exact ⟨[], .nil _, by simp⟩
  | provided hto hm => exact ⟨[], .nil _, by simp⟩
  | @provide depth specifier name importer g hto hnew =>
      refine ⟨[.ofExternal name], ⟨rfl, ?_⟩, ?_⟩
      · intro m hm
        rw [List.mem_singleton.mp hm]
        exact hnew
      · intro _ m hm
        rw [List.mem_singleton.mp hm]
        rfl
  | file hto hload ih => exact ih
  | settle depth id g =>
      intro front m back hg halone
      refine ⟨[], [], ?_, by simp, by simp⟩
      rw [updateModule_eq hg halone]
      simp [GraphModule.advance, Except.isOk, Except.toBool]
  | blocked hresolve ih =>
      intro front m back hg halone
      obtain ⟨added, hadds, -⟩ := ih
      refine ⟨[], added, ?_, hadds.fresh, by simp [Except.isOk, Except.toBool]⟩
      rw [hadds.eq, hg]
      simp [GraphModule.advance, Except.isOk, Except.toBool]
  | @link depth id dependency specifier rest g g' g'' out hresolve hrest ih ih' =>
      intro front m back hg halone
      obtain ⟨added, hadds, hsettled⟩ := ih
      have halone' := halone.adds hg hadds
      have hg' : g'.modules = front ++ m :: (back ++ added) := by
        rw [hadds.eq]
        simp [hg]
      rw [updateModule_eq hg' halone'] at ih'
      obtain ⟨links, more, hg'', hfresh, hmore⟩ :=
        ih' front { m with dependencies := m.dependencies ++ [(specifier, dependency)] }
          (back ++ added) rfl ⟨halone.same, halone'.others⟩
      refine ⟨(specifier, dependency) :: links, added ++ more, ?_, ?_, ?_⟩
      · rw [hg'', hadds.eq]
        simp [GraphModule.advance]
      · intro a ha
        rcases List.mem_append.mp ha with ha | ha
        · exact hadds.fresh a ha
        · have hnone := hfresh a ha
          rw [module?_eq_none_iff] at hnone ⊢
          intro other hother
          rw [hg] at hother
          rcases List.mem_append.mp hother with hother | hother
          · exact hnone other (by simp [hother])
          · rcases List.mem_cons.mp hother with rfl | hother
            · exact hnone
                { other with dependencies := other.dependencies ++ [(specifier, dependency)] }
                (List.mem_append_right _ List.mem_cons_self)
            · exact hnone other (by simp [hother])
      · intro hok a ha
        rcases List.mem_append.mp ha with ha | ha
        · exact hsettled rfl a ha
        · exact hmore hok a ha

end Graph
end EsModules
