import EsModules.Proofs.Graph.Loading

/-!
# Coherent graphs

In every graph that is reached, also after failed steps, each module is what its file or its name
makes it, with a first part of its imports linked to what they stand for.  No two modules share an
identity, and every identity that is noted as a dependency or as an entry has a module.
-/

namespace EsModules
namespace Graph

variable {g g' : Graph} {depth : Nat} {task : Task} {out : Except GraphError ModuleId}

/-- The identity of the module that an import stands for. -/
def target? (g : Graph) (importer : ModuleId) (specifier : String) : Option ModuleId :=
  match g.resolution? specifier importer with
  | none => none
  | some (.external name) => some (.external name)
  | some (.file path) => (ModuleId.ofPath path).toOption

/-- A module that the host provides, or one that was read from its file.  Of the latter some first
imports are linked, and all of them if it is resolved. -/
inductive Genuine (g : Graph) : GraphModule → Prop where
  | external (name : String) : Genuine g (.ofExternal name)
  | loaded
      {path : String}
      {id : ModuleId}
      {m : GraphModule}
      {links : List (String × ModuleId)}
      {rest : List String}
      {done : Bool}
      (hid : ModuleId.ofPath path = .ok id)
      (hread : g.readModule id path = .ok m)
      (hsources : m.catalog.sources = links.map Prod.fst ++ rest)
      (htargets : ∀ link ∈ links, g.target? id link.1 = some link.2)
      (hdone : done = true → rest = []) :
      Genuine g (m.advance links done)

/-- What a graph is loaded from. -/
structure SameGround (g g' : Graph) : Prop where
  root : g'.root = g.root
  files : g'.files = g.files
  resolvers : g'.resolvers = g.resolvers

theorem sameGround_modules (g : Graph) (modules : List GraphModule) :
    SameGround g { g with modules := modules } :=
  ⟨rfl, rfl, rfl⟩

theorem SameGround.symm (h : SameGround g g') : SameGround g' g :=
  ⟨h.root.symm, h.files.symm, h.resolvers.symm⟩

theorem SameGround.trans {g'' : Graph} (h : SameGround g g') (h' : SameGround g' g'') :
    SameGround g g'' :=
  ⟨h'.root.trans h.root, h'.files.trans h.files, h'.resolvers.trans h.resolvers⟩

theorem SameGround.resolution?_eq (h : SameGround g g') (specifier : String) (importer : ModuleId) :
    g'.resolution? specifier importer = g.resolution? specifier importer := by
  unfold resolution?
  rw [h.root, h.files, h.resolvers]

theorem SameGround.target?_eq (h : SameGround g g') (importer : ModuleId) (specifier : String) :
    g'.target? importer specifier = g.target? importer specifier := by
  unfold target?
  rw [h.resolution?_eq]

theorem SameGround.readModule_eq (h : SameGround g g') (id : ModuleId) (path : String) :
    g'.readModule id path = g.readModule id path := by
  unfold readModule
  rw [h.root, h.files]

theorem Genuine.of_sameGround
    {m : GraphModule}
    (h : SameGround g g')
    (hm : g.Genuine m) :
    g'.Genuine m := by
  cases hm with
  | external name => exact .external name
  | loaded hid hread hsources htargets hdone =>
      refine .loaded hid (by rw [h.readModule_eq, hread]) hsources ?_ hdone
      intro link hlink
      rw [h.target?_eq]
      exact htargets link hlink

/-- Where the name and the identity of a module come from. -/
inductive Origin (g : Graph) (m : GraphModule) : Prop where
  | external
      (hm : m = .ofExternal m.name)
  | file
      {path : String}
      (hexternal : m.external = false)
      (hpath : m.path = some path)
      (hid : m.id = ⟨Path.clean path⟩)
      (hname : registrationName? g.root path = some m.name)

theorem Genuine.origin {m : GraphModule} (h : g.Genuine m) : g.Origin m := by
  cases h with
  | external name => exact .external rfl
  | loaded hid hread hsources htargets hdone =>
      obtain ⟨name, text, catalog, hname, -, -, rfl⟩ := readModule_eq_ok hread
      exact .file rfl rfl (ModuleId.eq_of_ofPath hid) hname

/-- The modules fit to what the graph is loaded from and to one another. -/
structure Coherent (g : Graph) : Prop where
  genuine : ∀ m ∈ g.modules, g.Genuine m
  distinct : g.modules.Pairwise fun a b => a.id.same b.id = false
  linked : ∀ m ∈ g.modules, ∀ link ∈ m.dependencies, ∃ d, g.module? link.2 = some d
  entered : ∀ id ∈ g.entries, ∃ m, g.module? id = some m

theorem coherent_empty (root : String) (files : SourceFiles) (resolvers : List Resolver) :
    (empty root files resolvers).Coherent where
  genuine := by simp [empty]
  distinct := .nil
  linked := by simp [empty]
  entered := by simp [empty]

namespace Coherent

theorem alone
    {front back : List GraphModule}
    {m : GraphModule}
    (h : g.Coherent)
    (hg : g.modules = front ++ m :: back) :
    Alone m.id front m back where
  same := ModuleId.same_iff.mpr rfl
  others := by
    have hdistinct := h.distinct
    rw [hg, List.pairwise_append, List.pairwise_cons] at hdistinct
    obtain ⟨-, ⟨hback, -⟩, hfront⟩ := hdistinct
    intro other hother
    rcases List.mem_append.mp hother with hother | hother
    · exact hfront other hother m List.mem_cons_self
    · rw [ModuleId.same_comm]
      exact hback other hother

theorem module?_of_mem
    {m : GraphModule}
    (h : g.Coherent)
    (hm : m ∈ g.modules) :
    g.module? m.id = some m := by
  obtain ⟨front, back, hg⟩ := List.append_of_mem hm
  have halone := h.alone hg
  unfold module?
  have hfront : front.find? (·.id.same m.id) = none := by
    rw [List.find?_eq_none]
    intro other hother
    simp [halone.others other (List.mem_append_left _ hother)]
  rw [hg, List.find?_append, hfront]
  simp [halone.same]

theorem eq_of_same
    {a b : GraphModule}
    (h : g.Coherent)
    (ha : a ∈ g.modules)
    (hb : b ∈ g.modules)
    (hsame : a.id.same b.id = true) :
    a = b := by
  have hfound := h.module?_of_mem ha
  rw [module?_congr hsame, h.module?_of_mem hb] at hfound
  exact (Option.some_inj.mp hfound).symm

/-- A module that links nothing yet is added. -/
theorem add
    {m : GraphModule}
    (h : g.Coherent)
    (hm : g.Genuine m)
    (hlinks : m.dependencies = [])
    (hnew : g.module? m.id = none) :
    (addModule m g).Coherent where
  genuine := by
    intro a ha
    apply Genuine.of_sameGround (sameGround_modules g _)
    rcases List.mem_append.mp ha with ha | ha
    · exact h.genuine a ha
    · rw [List.mem_singleton.mp ha]
      exact hm
  distinct := by
    apply List.pairwise_append.mpr
    refine ⟨h.distinct, List.pairwise_singleton _ _, ?_⟩
    intro a ha b hb
    rw [List.mem_singleton.mp hb]
    exact module?_eq_none_iff.mp hnew a ha
  linked := by
    intro a ha link hlink
    rcases List.mem_append.mp ha with ha | ha
    · obtain ⟨d, hd⟩ := h.linked a ha link hlink
      exact exists_module?_of_ids (fun a ha => ⟨a, List.mem_append_left _ ha, rfl⟩) hd
    · rw [List.mem_singleton.mp ha, hlinks] at hlink
      cases hlink
  entered := by
    intro id hid
    obtain ⟨d, hd⟩ := h.entered id hid
    exact exists_module?_of_ids (fun a ha => ⟨a, List.mem_append_left _ ha, rfl⟩) hd

/-- A module is changed, but not its identity. -/
theorem update
    {m m' : GraphModule}
    {f : GraphModule → GraphModule}
    (h : g.Coherent)
    (hm : m ∈ g.modules)
    (hf : f m = m')
    (hid : m'.id = m.id)
    (hgenuine : g.Genuine m')
    (hlinked : ∀ link ∈ m'.dependencies, ∃ d, g.module? link.2 = some d) :
    m' ∈ (updateModule m.id f g).modules ∧ (updateModule m.id f g).Coherent := by
  obtain ⟨front, back, hg⟩ := List.append_of_mem hm
  rw [updateModule_eq hg (h.alone hg), hf]
  have hids : ∀ a ∈ g.modules, ∃ b ∈ front ++ m' :: back, b.id = a.id := by
    intro a ha
    rw [hg] at ha
    rcases List.mem_append.mp ha with ha | ha
    · exact ⟨a, by simp [ha], rfl⟩
    · rcases List.mem_cons.mp ha with rfl | ha
      · exact ⟨m', by simp, hid⟩
      · exact ⟨a, by simp [ha], rfl⟩
  have hold : ∀ a ∈ front ++ m' :: back, a = m' ∨ a ∈ g.modules := by
    intro a ha
    rw [hg]
    rcases List.mem_append.mp ha with ha | ha
    · exact .inr (by simp [ha])
    · rcases List.mem_cons.mp ha with rfl | ha
      · exact .inl rfl
      · exact .inr (by simp [ha])
  refine ⟨by simp, ?_, ?_, ?_, ?_⟩
  · intro a ha
    apply Genuine.of_sameGround (sameGround_modules g _)
    rcases hold a ha with rfl | ha
    · exact hgenuine
    · exact h.genuine a ha
  · have hdistinct := h.distinct
    rw [hg, List.pairwise_append, List.pairwise_cons] at hdistinct
    obtain ⟨hfront, ⟨hback, hbacks⟩, hacross⟩ := hdistinct
    apply List.pairwise_append.mpr
    refine ⟨hfront, List.pairwise_cons.mpr ⟨?_, hbacks⟩, ?_⟩
    · intro b hb
      rw [hid]
      exact hback b hb
    · intro a ha b hb
      rcases List.mem_cons.mp hb with rfl | hb
      · rw [hid]
        exact hacross a ha m List.mem_cons_self
      · exact hacross a ha b (List.mem_cons_of_mem _ hb)
  · intro a ha link hlink
    obtain ⟨d, hd⟩ : ∃ d, g.module? link.2 = some d := by
      rcases hold a ha with rfl | ha
      · exact hlinked link hlink
      · exact h.linked a ha link hlink
    exact exists_module?_of_ids hids hd
  · intro id hid
    obtain ⟨d, hd⟩ := h.entered id hid
    exact exists_module?_of_ids hids hd

end Coherent

/-! ### Tasks -/

/-- Before the imports of a module are linked one after the other, it is in the graph with the
earlier ones linked. -/
def Ready (g : Graph) : Task → Prop
  | .load _ | .resolve _ _ => True
  | .link id specifiers =>
      ∃ path m links,
        ModuleId.ofPath path = .ok id ∧
        g.readModule id path = .ok m ∧
        m.catalog.sources = links.map Prod.fst ++ specifiers ∧
        (∀ link ∈ links, g.target? id link.1 = some link.2) ∧
        m.advance links false ∈ g.modules

/-- The identity that a task is about. -/
def Answers (g : Graph) (id : ModuleId) : Task → Prop
  | .load path => ModuleId.ofPath path = .ok id
  | .resolve specifier importer => g.target? importer specifier = some id
  | .link importer _ => id = importer

theorem Adds.sameGround
    {added : List GraphModule}
    (h : g.Adds added g') :
    SameGround g g' := by
  rw [h.eq]
  exact ⟨rfl, rfl, rfl⟩

theorem Runs.coherent
    (h : Runs depth task g out g')
    (hg : g.Coherent)
    (hready : g.Ready task) :
    g'.Coherent ∧ ∀ id, out = .ok id → g.Answers id task ∧ ∃ m, g'.module? id = some m := by
  induction h with
  | exhausted path g => exact ⟨hg, by simp⟩
  | refused hid => exact ⟨hg, by simp⟩
  | cached hid hm =>
      refine ⟨hg, ?_⟩
      rintro id' ⟨⟩
      exact ⟨hid, _, hm⟩
  | unreadable hid hnew hread => exact ⟨hg, by simp⟩
  | @load depth path id m g g' out hid hnew hread hlink ih =>
      have hm : m.advance [] false = m := by simp [GraphModule.advance]
      have hgenuine : g.Genuine m := by
        rw [← hm]
        exact .loaded hid hread (List.nil_append m.catalog.sources).symm (by simp) (by simp)
      have hadd : (addModule m g).Coherent := by
        apply hg.add hgenuine
        · obtain ⟨_, _, _, _, _, _, rfl⟩ := readModule_eq_ok hread
          rfl
        · rw [id_of_readModule hread]
          exact hnew
      obtain ⟨hcoherent, hanswers⟩ := ih hadd
        ⟨path, m, [], hid, hread, by simp, by simp, by simp [hm, addModule]⟩
      refine ⟨hcoherent, ?_⟩
      intro id' hok
      obtain ⟨rfl, hknown⟩ := hanswers id' hok
      exact ⟨hid, hknown⟩
  | unresolved hto => exact ⟨hg, by simp⟩
  | provided hto hm =>
      refine ⟨hg, ?_⟩
      rintro id ⟨⟩
      exact ⟨by simp [Answers, target?, hto], _, hm⟩
  | @provide depth specifier name importer g hto hnew =>
      have hcoherent := hg.add (.external name) rfl hnew
      refine ⟨hcoherent, ?_⟩
      rintro id ⟨⟩
      refine ⟨by simp [Answers, target?, hto], .ofExternal name, ?_⟩
      exact hcoherent.module?_of_mem (m := .ofExternal name) (by simp [addModule])
  | @file depth specifier path importer g g' out hto hload ih =>
      obtain ⟨hcoherent, hanswers⟩ := ih hg trivial
      refine ⟨hcoherent, ?_⟩
      intro id hok
      obtain ⟨hid, hknown⟩ := hanswers id hok
      have hid : ModuleId.ofPath path = .ok id := hid
      exact ⟨by simp [Answers, target?, hto, hid, Except.toOption], hknown⟩
  | settle depth id g =>
      obtain ⟨path, m, links, hid, hread, hsources, htargets, hm⟩ := hready
      have hsettled : { m.advance links false with resolved := true } = m.advance links true := by
        simp [GraphModule.advance]
      obtain ⟨hmem, hcoherent⟩ := hg.update hm
        (f := fun m => { m with resolved := true }) hsettled rfl
        (.loaded hid hread hsources htargets fun _ => rfl) (hg.linked (m.advance links false) hm)
      have hid' : (m.advance links false).id = id := by
        show m.id = id
        exact id_of_readModule hread
      rw [hid'] at hmem hcoherent
      refine ⟨hcoherent, ?_⟩
      rintro id ⟨⟩
      refine ⟨rfl, m.advance links true, ?_⟩
      rw [← hid'] at hmem hcoherent ⊢
      exact hcoherent.module?_of_mem hmem
  | blocked hresolve ih => exact ⟨(ih hg trivial).1, by simp⟩
  | @link depth id dependency specifier rest g g' g'' out hresolve hrest ih ih' =>
      obtain ⟨path, m, links, hid, hread, hsources, htargets, hm⟩ := hready
      obtain ⟨hg', hanswers⟩ := ih hg trivial
      obtain ⟨htarget, hknown⟩ := hanswers dependency rfl
      obtain ⟨added, hadds, -⟩ := hresolve.leaves
      have hground := hadds.sameGround
      -- the module that is linked is still there, as it was before its import was resolved
      have hm' : m.advance links false ∈ g'.modules := by
        rw [hadds.eq]
        exact List.mem_append_left _ hm
      have hread' : g'.readModule id path = .ok m := by rw [hground.readModule_eq, hread]
      have htargets' : ∀ link ∈ links ++ [(specifier, dependency)],
          g'.target? id link.1 = some link.2 := by
        intro link hlink
        rw [hground.target?_eq]
        rcases List.mem_append.mp hlink with hlink | hlink
        · exact htargets link hlink
        · rw [List.mem_singleton.mp hlink]
          exact htarget
      have hsources' : m.catalog.sources =
          (links ++ [(specifier, dependency)]).map Prod.fst ++ rest := by
        rw [hsources]
        simp
      have hlinked :
          { m.advance links false with
            dependencies := (m.advance links false).dependencies ++ [(specifier, dependency)] } =
          m.advance (links ++ [(specifier, dependency)]) false := by
        simp [GraphModule.advance]
      obtain ⟨hmem, hcoherent⟩ :=
        hg'.update hm'
          (f := fun m => { m with dependencies := m.dependencies ++ [(specifier, dependency)] })
          hlinked rfl
          (.loaded hid hread' hsources' htargets' (by simp))
          (by
            intro link hlink
            simp only [GraphModule.advance, ← List.append_assoc] at hlink
            rcases List.mem_append.mp hlink with hlink | hlink
            · exact hg'.linked _ hm' link hlink
            · rw [List.mem_singleton.mp hlink]
              exact hknown)
      have hid' : (m.advance links false).id = id := by
        show m.id = id
        exact id_of_readModule hread
      rw [hid'] at hmem hcoherent
      exact ih' hcoherent
        ⟨path, m, links ++ [(specifier, dependency)], hid, hread', hsources', htargets', hmem⟩

/-! ### Steps -/

theorem coherent_addEntry (hg : g.Coherent) (path : String) :
    (after (addEntry path) g).Coherent := by
  show Ends (addEntry path) g fun _ => Coherent
  apply Ends.get
  split
  · exact Ends.throw hg
  · rename_i file _
    apply (runs_loadLocal g.loadingDepth file g).bind
    · intro e g' hruns
      exact (hruns.coherent hg trivial).1
    · intro id g' hruns
      obtain ⟨hg', hanswers⟩ := hruns.coherent hg trivial
      obtain ⟨-, hknown⟩ := hanswers id rfl
      apply Ends.modify
      apply Ends.pure
      split
      · exact hg'
      · refine ⟨?_, hg'.distinct, hg'.linked, ?_⟩
        · intro m hm
          exact Genuine.of_sameGround (g := g') ⟨rfl, rfl, rfl⟩ (hg'.genuine m hm)
        · intro other hother
          rcases List.mem_append.mp hother with hother | hother
          · exact hg'.entered other hother
          · rw [List.mem_singleton.mp hother]
            exact hknown

theorem coherent_resolveModule (hg : g.Coherent) (specifier : String) (importer : ModuleId) :
    (after (resolveModule specifier importer) g).Coherent := by
  have hruns := runs_resolveModule specifier importer g
  exact (Runs.coherent hruns hg trivial).1

theorem Reached.coherent (h : g.Reached) : g.Coherent := by
  induction h with
  | empty root files resolvers => exact coherent_empty root files resolvers
  | addEntry _ path ih => exact coherent_addEntry ih path
  | resolveModule _ specifier importer ih => exact coherent_resolveModule ih specifier importer

end Graph
end EsModules
