import EsModules.Graph
import EsModules.Proofs.Catalog
import Mathlib.Logic.Relation

/-!
# How a graph grows

A step on a graph, whether it fails or not, is a sequence of small changes: a module is read or
provided by the host, an import of a module is linked, a module is marked as resolved, an entry is
added.  What every change keeps holds of every graph that is reached from an empty one.
-/

namespace EsModules
namespace Graph

/-- One change of a graph. -/
inductive Change (g : Graph) : Graph → Prop where
  | load
      {id : ModuleId}
      {path : String}
      {m : GraphModule}
      (hid : ModuleId.ofPath path = .ok id)
      (hnew : g.module? id = none)
      (hread : g.readModule id path = .ok m) :
      Change g (addModule m g)
  | provide
      {name : String}
      (hnew : g.module? (.external name) = none) :
      Change g (addModule (.ofExternal name) g)
  | link (id : ModuleId) (specifier : String) (dependency : ModuleId) :
      Change g (updateModule id
        (fun m => { m with dependencies := m.dependencies ++ [(specifier, dependency)] }) g)
  | settle (id : ModuleId) :
      Change g (updateModule id (fun m => { m with resolved := true }) g)
  | enter (id : ModuleId) :
      Change g (if id.isAmong g.entries then g else { g with entries := g.entries ++ [id] })

/-- The graph behind a step. -/
def after {α : Type} (step : GraphStep α) (g : Graph) : Graph :=
  (step.run.run g).2

/-- The graphs that steps reach from an empty one. -/
inductive Reached : Graph → Prop where
  | empty (root : String) (files : SourceFiles) (resolvers : List Resolver) :
      Reached (.empty root files resolvers)
  | addEntry {g : Graph} (h : Reached g) (path : String) :
      Reached (after (addEntry path) g)
  | resolveModule {g : Graph} (h : Reached g) (specifier : String) (importer : ModuleId) :
      Reached (after (resolveModule specifier importer) g)

/-- A step changes a graph by changes only. -/
def Grows {α : Type} (step : GraphStep α) (g : Graph) : Prop :=
  Relation.ReflTransGen Change g (after step g)

theorem Grows.pure {α : Type} (a : α) (g : Graph) : Grows (Pure.pure a) g :=
  .refl

theorem Grows.pure_bind
    {α β : Type}
    {a : α}
    {next : α → GraphStep β}
    {g : Graph}
    (h : Grows (next a) g) :
    Grows (Pure.pure a >>= next) g :=
  h

theorem Grows.throw {α : Type} (e : GraphError) (g : Graph) :
    Grows (throw e : GraphStep α) g :=
  .refl

theorem Grows.bind
    {α β : Type}
    {step : GraphStep α}
    {next : α → GraphStep β}
    {g : Graph}
    (hstep : Grows step g)
    (hnext : ∀ a, Grows (next a) (after step g)) :
    Grows (step >>= next) g := by
  unfold Grows after at *
  simp only [ExceptT.run_bind, StateT.run_bind]
  cases hrun : step.run.run g with
  | mk outcome g' =>
      rw [hrun] at hstep hnext
      cases outcome with
      | error e => exact hstep
      | ok a => exact hstep.trans (hnext a)

theorem Grows.get
    {β : Type}
    {next : Graph → GraphStep β}
    {g : Graph}
    (h : Grows (next g) g) :
    Grows (MonadState.get >>= next) g :=
  h

theorem Grows.modify
    {f : Graph → Graph}
    {g : Graph}
    (h : Change g (f g)) :
    Grows (modify f) g :=
  .single h

theorem grows_resolveBy
    {load : String → GraphStep ModuleId}
    (hload : ∀ path g, Grows (load path) g)
    (specifier : String)
    (importer : ModuleId)
    (g : Graph) :
    Grows (resolveBy load specifier importer) g := by
  apply Grows.get
  split
  · exact Grows.throw _ g
  · rename_i name _
    by_cases hnew : (g.module? (.external name)).isNone = true
    · simp only [hnew, if_true]
      exact (Grows.modify (.provide (Option.isNone_iff_eq_none.mp hnew))).bind
        fun _ => Grows.pure _ _
    · simp only [hnew]
      exact Grows.pure _ g
  · exact hload _ g

theorem grows_resolveImports
    {load : String → GraphStep ModuleId}
    (hload : ∀ path g, Grows (load path) g)
    (id : ModuleId)
    (specifiers : List String)
    (g : Graph) :
    Grows (resolveImports load id specifiers) g := by
  induction specifiers generalizing g with
  | nil => exact Grows.modify (.settle id)
  | cons specifier rest ih =>
      apply (grows_resolveBy hload specifier id g).bind
      intro dependency
      exact (Grows.modify (.link id specifier dependency)).bind fun _ => ih _

theorem grows_loadLocal (depth : Nat) (path : String) (g : Graph) :
    Grows (loadLocal depth path) g := by
  induction depth generalizing path g with
  | zero => exact Grows.throw _ g
  | succ depth ih =>
      unfold loadLocal
      cases hid : ModuleId.ofPath path with
      | error e => exact Grows.throw _ g
      | ok id =>
          apply Grows.pure_bind
          apply Grows.get
          by_cases hknown : (g.module? id).isSome = true
          · simp only [hknown, if_true]
            exact Grows.pure id g
          · simp only [hknown]
            cases hread : g.readModule id path with
            | error e => exact Grows.throw e g
            | ok m =>
                apply Grows.pure_bind
                have hnew : g.module? id = none := by simpa using hknown
                apply (Grows.modify (.load hid hnew hread)).bind
                intro _
                exact (grows_resolveImports ih id _ _).bind fun _ => Grows.pure id _

theorem grows_resolveModule (specifier : String) (importer : ModuleId) (g : Graph) :
    Grows (resolveModule specifier importer) g := by
  apply Grows.get
  exact grows_resolveBy (grows_loadLocal g.loadingDepth) specifier importer g

theorem grows_addEntry (path : String) (g : Graph) : Grows (addEntry path) g := by
  apply Grows.get
  split
  · exact Grows.throw _ g
  · rename_i file _
    apply (grows_loadLocal g.loadingDepth file g).bind
    intro id
    exact (Grows.modify (.enter id)).bind fun _ => Grows.pure id _

/-- What every change keeps holds of every graph that is reached. -/
theorem Reached.invariant
    {P : Graph → Prop}
    (hempty : ∀ root files resolvers, P (.empty root files resolvers))
    (hchange : ∀ g g', P g → Change g g' → P g')
    {g : Graph}
    (h : Reached g) :
    P g := by
  have hgrows : ∀ {g g' : Graph}, P g → Relation.ReflTransGen Change g g' → P g' := by
    intro g g' hg hsteps
    induction hsteps with
    | refl => exact hg
    | tail _ hlast ih => exact hchange _ _ ih hlast
  induction h with
  | empty root files resolvers => exact hempty root files resolvers
  | addEntry _ path ih => exact hgrows ih (grows_addEntry path _)
  | resolveModule _ specifier importer ih =>
      exact hgrows ih (grows_resolveModule specifier importer _)

/-! ### Catalogs -/

theorem readModule_eq_ok
    {g : Graph}
    {id : ModuleId}
    {path : String}
    {m : GraphModule}
    (h : g.readModule id path = .ok m) :
    ∃ name text catalog,
      registrationName? g.root path = some name ∧
      g.files.read? path = some text ∧
      analyze path text = .ok catalog ∧
      m = .loaded id name path text catalog := by
  unfold readModule at h
  cases hname : registrationName? g.root path with
  | none =>
      rw [hname] at h
      cases h
  | some name =>
      rw [hname] at h
      cases htext : g.files.read? path with
      | none =>
          rw [htext] at h
          cases h
      | some text =>
          rw [htext] at h
          cases hanalyze : analyze path text with
          | error e =>
              simp [hanalyze] at h
          | ok catalog =>
              simp only [pure_bind, hanalyze] at h
              cases h
              exact ⟨name, text, catalog, rfl, rfl, hanalyze, rfl⟩

theorem closed_of_readModule
    {g : Graph}
    {id : ModuleId}
    {path : String}
    {m : GraphModule}
    (h : g.readModule id path = .ok m) :
    m.catalog.Closed := by
  obtain ⟨name, text, catalog, -, -, hanalyze, rfl⟩ := readModule_eq_ok h
  obtain ⟨program, -, hbuild⟩ := bind_eq_ok.mp hanalyze
  exact (Catalog.covers_build hbuild).closed

/-- The catalogs of a graph know all sources they speak of. -/
theorem Reached.closed
    {g : Graph}
    (h : Reached g) :
    ∀ m ∈ g.modules, m.catalog.Closed := by
  refine Reached.invariant (P := fun g => ∀ m ∈ g.modules, m.catalog.Closed) ?_ ?_ h
  · intro root files resolvers m hm
    cases hm
  · intro g g' hg hchange
    have hupdate : ∀ id f, (∀ m : GraphModule, (f m).catalog = m.catalog) →
        ∀ m ∈ (updateModule id f g).modules, m.catalog.Closed := by
      intro id f hf m hm
      obtain ⟨m', hm', rfl⟩ := List.mem_map.mp hm
      split
      · rw [hf]
        exact hg m' hm'
      · exact hg m' hm'
    cases hchange with
    | load hid hnew hread =>
        intro m hm
        rcases List.mem_append.mp hm with hm | hm
        · exact hg m hm
        · rw [List.mem_singleton.mp hm]
          exact closed_of_readModule hread
    | provide hnew =>
        intro m hm
        rcases List.mem_append.mp hm with hm | hm
        · exact hg m hm
        · rw [List.mem_singleton.mp hm]
          exact Catalog.closed_empty
    | link id specifier dependency => exact hupdate _ _ fun _ => rfl
    | settle id => exact hupdate _ _ fun _ => rfl
    | enter id =>
        split
        · exact hg
        · exact hg

end Graph
end EsModules
