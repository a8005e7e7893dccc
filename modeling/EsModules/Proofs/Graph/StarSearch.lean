import EsModules.Graph.StarExports
import EsModules.Proofs.Graph.Growth
import EsModules.Proofs.Graph.Lookup

/-!
# The search for public names

The public names of a module, apart from the default export, are those that some module exports
which is reached from it through `export *`.  The search enters each of these modules once: the
modules that a call enters are reached from its start, and what they export again is entered by
the time the call ends.
-/

namespace EsModules

namespace Graph

variable {g : Graph}

/-- An imported path of a module stands for another one. -/
def LeadsTo (g : Graph) (a : GraphModule) (source : String) (b : GraphModule) : Prop :=
  ∃ id, a.dependency? source = some id ∧ g.module? id = some b

/-- A module exports all names of another one again. -/
def StarEdge (g : Graph) (a b : GraphModule) : Prop :=
  ∃ source ∈ a.catalog.stars, g.LeadsTo a source b

/-- A module is reached through `export *`, by any number of steps. -/
def StarReach (g : Graph) (a b : GraphModule) : Prop :=
  Relation.ReflTransGen g.StarEdge a b

/-- A name is exported by a module or by one that is reached from it through `export *`. -/
def Provides (g : Graph) (a : GraphModule) (n : String) : Prop :=
  ∃ b, g.StarReach a b ∧ n ∈ b.catalog.exportNames

/-- The public names of the module can be looked for: it is no module of the host, and its star
exports are resolved. -/
def Open (g : Graph) (a : GraphModule) : Prop :=
  a.external = false ∧ ∀ source ∈ a.catalog.stars, ∃ b, g.LeadsTo a source b

theorem LeadsTo.unique
    {a b c : GraphModule}
    {source : String}
    (hb : g.LeadsTo a source b)
    (hc : g.LeadsTo a source c) :
    b = c := by
  obtain ⟨id, hid, hb⟩ := hb
  obtain ⟨id', hid', hc⟩ := hc
  rw [hid] at hid'
  cases hid'
  rw [hb] at hc
  cases hc
  rfl

/-- The modules that were entered between two moments of a search. -/
structure New (g : Graph) (before later : List ModuleId) (m : GraphModule) : Prop where
  known : g.module? m.id = some m
  seen : m.id.isAmong later = true
  unseen : m.id.isAmong before = false

theorem not_new_self
    (visited : List ModuleId)
    (m : GraphModule) :
    ¬g.New visited visited m := by
  rintro ⟨-, hseen, hunseen⟩
  rw [hseen] at hunseen
  cases hunseen

theorem new_cons_iff
    {visited : List ModuleId}
    {id : ModuleId}
    {root m : GraphModule}
    (hroot : g.module? id = some root)
    (hid : id.isAmong visited = false) :
    g.New visited (id :: visited) m ↔ m = root := by
  have hsame := same_of_module? hroot
  constructor
  · rintro ⟨hknown, hseen, hunseen⟩
    have hm : m.id.same id = true := by
      rw [ModuleId.isAmong_cons, hunseen] at hseen
      simpa using hseen
    rw [module?_congr hm, hroot] at hknown
    cases hknown
    rfl
  · rintro rfl
    refine ⟨module?_id hroot, ?_, ?_⟩
    · rw [ModuleId.isAmong_cons, hsame]
      rfl
    · rw [ModuleId.isAmong_congr hsame, hid]

theorem new_trans_iff
    {first second third : List ModuleId}
    (hsecond : ∀ id : ModuleId, id.isAmong first = true → id.isAmong second = true)
    (hthird : ∀ id : ModuleId, id.isAmong second = true → id.isAmong third = true)
    (m : GraphModule) :
    g.New first third m ↔ g.New first second m ∨ g.New second third m := by
  constructor
  · rintro ⟨hknown, hseen, hunseen⟩
    cases hmid : m.id.isAmong second with
    | true => exact .inl ⟨hknown, hmid, hunseen⟩
    | false => exact .inr ⟨hknown, hseen, hmid⟩
  · rintro (⟨hknown, hseen, hunseen⟩ | ⟨hknown, hseen, hunseen⟩)
    · exact ⟨hknown, hthird m.id hseen, hunseen⟩
    · refine ⟨hknown, hseen, ?_⟩
      by_contra hfirst
      rw [hsecond m.id (by simpa using hfirst)] at hunseen
      cases hunseen

theorem mem_addNames
    {names more : List String}
    {n : String} :
    n ∈ addNames names more ↔ n ∈ names ∨ n ∈ more ∧ n ≠ "default" := by
  induction more generalizing names with
  | nil => simp [addNames]
  | cons first more ih =>
      have hstep : addNames names (first :: more) =
          addNames (if first == "default" || names.contains first then names else names ++ [first])
            more := rfl
      rw [hstep, ih]
      by_cases hskip : first = "default" ∨ first ∈ names
      · have hkeep : (first == "default" || names.contains first) = true := by simpa using hskip
        rw [if_pos hkeep]
        grind
      · have hadd : ¬(first == "default" || names.contains first) = true := by simpa using hskip
        rw [if_neg hadd]
        grind

/-- What a search below `root` has found: the modules entered since `before` are reached from
`root`, and the names are those that they export.  Apart from the modules of `pending`, what they
export again has been entered too. -/
structure Searched
    (g : Graph)
    (before : List ModuleId)
    (root : GraphModule)
    (pending : GraphModule → Prop)
    (found : NameSearch) :
    Prop where
  grows : ∀ id : ModuleId, id.isAmong before = true → id.isAmong found.visited = true
  started : root.id.isAmong found.visited = true
  reached : ∀ m, g.New before found.visited m → g.StarReach root m
  explored :
    ∀ m, g.New before found.visited m → ¬pending m →
      m.external = false ∧
        ∀ source ∈ m.catalog.stars,
          ∃ b, g.LeadsTo m source b ∧ b.id.isAmong found.visited = true
  names :
    ∀ n, n ≠ "default" →
      (n ∈ found.names ↔ ∃ m, g.New before found.visited m ∧ n ∈ m.catalog.exportNames)

/-- A module that was entered before gives no names. -/
theorem searched_again
    {visited : List ModuleId}
    {id : ModuleId}
    {root : GraphModule}
    (hroot : g.module? id = some root)
    (hid : id.isAmong visited = true) :
    g.Searched visited root (fun _ => False) ⟨[], visited⟩ where
  grows := fun _ h => h
  started := by rw [ModuleId.isAmong_congr (same_of_module? hroot), hid]
  reached := fun m hm => absurd hm (not_new_self visited m)
  explored := fun m hm => absurd hm (not_new_self visited m)
  names := by
    intro n hn
    constructor
    · intro h
      cases h
    · rintro ⟨m, hm, -⟩
      exact absurd hm (not_new_self visited m)

/-- A module that is entered gives its own names first. -/
theorem searched_enter
    {visited : List ModuleId}
    {id : ModuleId}
    {root : GraphModule}
    (hroot : g.module? id = some root)
    (hid : id.isAmong visited = false) :
    g.Searched visited root (· = root) ⟨root.catalog.exportNames, id :: visited⟩ where
  grows := by
    intro other hother
    rw [ModuleId.isAmong_cons, hother, Bool.or_true]
  started := by rw [ModuleId.isAmong_cons, same_of_module? hroot, Bool.true_or]
  reached := by
    intro m hm
    rw [(new_cons_iff hroot hid).mp hm]
    exact .refl
  explored := fun m hm hpending => absurd ((new_cons_iff hroot hid).mp hm) hpending
  names := by
    intro n hn
    constructor
    · intro h
      exact ⟨root, (new_cons_iff hroot hid).mpr rfl, h⟩
    · rintro ⟨m, hm, h⟩
      rw [← (new_cons_iff hroot hid).mp hm]
      exact h

/-- A search below another module that `root` exports again goes on where the search stands. -/
theorem Searched.append
    {before : List ModuleId}
    {root b : GraphModule}
    {search found : NameSearch}
    (h : g.Searched before root (· = root) search)
    (hedge : g.StarEdge root b)
    (hfound : g.Searched search.visited b (fun _ => False) found) :
    g.Searched before root (· = root) ⟨addNames search.names found.names, found.visited⟩ where
  grows := fun id hid => hfound.grows id (h.grows id hid)
  started := hfound.grows root.id h.started
  reached := by
    intro m hm
    rcases (new_trans_iff h.grows hfound.grows m).mp hm with hm | hm
    · exact h.reached m hm
    · exact .head hedge (hfound.reached m hm)
  explored := by
    intro m hm hpending
    rcases (new_trans_iff h.grows hfound.grows m).mp hm with hm | hm
    · obtain ⟨hlocal, hstars⟩ := h.explored m hm hpending
      refine ⟨hlocal, fun source hsource => ?_⟩
      obtain ⟨c, hleads, hseen⟩ := hstars source hsource
      exact ⟨c, hleads, hfound.grows c.id hseen⟩
    · exact hfound.explored m hm (fun h => h)
  names := by
    intro n hn
    rw [mem_addNames, h.names n hn, hfound.names n hn]
    constructor
    · rintro (⟨m, hm, hname⟩ | ⟨⟨m, hm, hname⟩, -⟩)
      · exact ⟨m, (new_trans_iff h.grows hfound.grows m).mpr (.inl hm), hname⟩
      · exact ⟨m, (new_trans_iff h.grows hfound.grows m).mpr (.inr hm), hname⟩
    · rintro ⟨m, hm, hname⟩
      rcases (new_trans_iff h.grows hfound.grows m).mp hm with hm | hm
      · exact .inl ⟨m, hm, hname⟩
      · exact .inr ⟨⟨m, hm, hname⟩, hn⟩

/-- A module is explored once all its star exports are. -/
theorem Searched.finish
    {before : List ModuleId}
    {root : GraphModule}
    {found : NameSearch}
    (h : g.Searched before root (· = root) found)
    (hlocal : root.external = false)
    (hstars :
      ∀ source ∈ root.catalog.stars,
        ∃ b, g.LeadsTo root source b ∧ b.id.isAmong found.visited = true) :
    g.Searched before root (fun _ => False) found where
  grows := h.grows
  started := h.started
  reached := h.reached
  explored := by
    intro m hm _
    by_cases hroot : m = root
    · subst hroot
      exact ⟨hlocal, hstars⟩
    · exact h.explored m hm hroot
  names := h.names

theorem requireModule_eq_ok
    {id : ModuleId}
    {m : GraphModule} :
    g.requireModule id = .ok m ↔ g.module? id = some m := by
  unfold requireModule
  cases g.module? id <;> simp

theorem requireDependency_eq_ok
    {m : GraphModule}
    {source : String}
    {id : ModuleId} :
    requireDependency m source = .ok id ↔ m.dependency? source = some id := by
  unfold requireDependency
  cases m.dependency? source <;> simp

/-- The search follows one star export of a module. -/
def followStar
    (g : Graph)
    (importer : String)
    (depth : Nat)
    (root : GraphModule)
    (search : NameSearch)
    (source : String) :
    Except GraphError NameSearch := do
  let dependency ← requireDependency root source
  let found ← g.publicNames importer depth search.visited dependency
  return ⟨addNames search.names found.names, found.visited⟩

theorem publicNames_of_local
    {id : ModuleId}
    {root : GraphModule}
    (hroot : g.module? id = some root)
    (hlocal : root.external = false)
    (importer : String)
    (depth : Nat)
    (visited : List ModuleId) :
    g.publicNames importer (depth + 1) visited id =
      if id.isAmong visited then .ok ⟨[], visited⟩
      else
        root.catalog.stars.foldlM (g.followStar importer depth root)
          ⟨root.catalog.exportNames, id :: visited⟩ := by
  rw [publicNames, requireModule_eq_ok.mpr hroot]
  change (if root.external = true then _ else _) = _
  rw [if_neg (by simp [hlocal])]
  rfl

theorem local_of_publicNames
    {importer : String}
    {depth : Nat}
    {visited : List ModuleId}
    {id : ModuleId}
    {found : NameSearch}
    (h : g.publicNames importer (depth + 1) visited id = .ok found) :
    ∃ root, g.module? id = some root ∧ root.external = false := by
  obtain ⟨root, hroot, h⟩ := bind_eq_ok.mp h
  refine ⟨root, requireModule_eq_ok.mp hroot, ?_⟩
  cases hlocal : root.external with
  | true =>
      rw [hlocal] at h
      cases h
  | false => rfl

theorem searched_publicNames
    {importer : String}
    {depth : Nat}
    {visited : List ModuleId}
    {id : ModuleId}
    {found : NameSearch}
    (h : g.publicNames importer depth visited id = .ok found) :
    ∃ root, g.module? id = some root ∧ g.Searched visited root (fun _ => False) found := by
  induction depth generalizing visited id found with
  | zero => cases h
  | succ depth ih =>
      obtain ⟨root, hroot, hlocal⟩ := local_of_publicNames h
      refine ⟨root, hroot, ?_⟩
      rw [publicNames_of_local hroot hlocal] at h
      cases hid : id.isAmong visited with
      | true =>
          rw [hid] at h
          cases h
          exact searched_again hroot hid
      | false =>
          rw [hid] at h
          -- the state of the loop, with the star exports that have been followed
          have hloop := foldlM_run
            (P := fun done search => g.Searched visited root (· = root) search ∧
              ∀ source ∈ done,
                ∃ b, g.LeadsTo root source b ∧ b.id.isAmong search.visited = true)
            ?_ [] ⟨searched_enter hroot hid, by simp⟩ h
          · exact hloop.1.finish hlocal hloop.2
          · rintro done search source next hsource ⟨hsearch, hdone⟩ hstep
            obtain ⟨dependency, hdependency, hstep⟩ := bind_eq_ok.mp hstep
            obtain ⟨more, hmore, hstep⟩ := bind_eq_ok.mp hstep
            cases hstep
            obtain ⟨b, hb, hfound⟩ := ih hmore
            have hleads : g.LeadsTo root source b :=
              ⟨dependency, requireDependency_eq_ok.mp hdependency, hb⟩
            refine ⟨hsearch.append ⟨source, hsource, hleads⟩ hfound, ?_⟩
            intro other hother
            rcases List.mem_append.mp hother with hother | hother
            · obtain ⟨c, hc, hseen⟩ := hdone other hother
              exact ⟨c, hc, hfound.grows c.id hseen⟩
            · rw [List.mem_singleton.mp hother]
              exact ⟨b, hleads, hfound.started⟩

/-! ### The depth of the search -/

theorem foldlM_followStar_eq_ok
    {importer : String}
    {depth : Nat}
    {root : GraphModule}
    {sources : List String}
    {search : NameSearch}
    (hfollow :
      ∀ source ∈ sources, ∀ visited, g.unseen visited < depth →
        ∃ id found, root.dependency? source = some id ∧
          g.publicNames importer depth visited id = .ok found)
    (hsearch : g.unseen search.visited < depth) :
    ∃ found, sources.foldlM (g.followStar importer depth root) search = .ok found := by
  induction sources generalizing search with
  | nil => exact ⟨search, rfl⟩
  | cons source sources ih =>
      obtain ⟨id, found, hid, hfound⟩ := hfollow source (by simp) search.visited hsearch
      obtain ⟨_, _, hsearched⟩ := searched_publicNames hfound
      have hless : g.unseen found.visited < depth :=
        Nat.lt_of_le_of_lt (unseen_le hsearched.grows) hsearch
      have hstep : g.followStar importer depth root search source =
          .ok ⟨addNames search.names found.names, found.visited⟩ := by
        apply bind_eq_ok.mpr
        exact ⟨id, requireDependency_eq_ok.mpr hid, bind_eq_ok.mpr ⟨found, hfound, rfl⟩⟩
      rw [List.foldlM_cons, hstep]
      exact ih (fun other hother => hfollow other (by simp [hother])) hless

/-- A search that may go deep enough succeeds if all modules it meets are open. -/
theorem publicNames_eq_ok
    {importer : String}
    {depth : Nat}
    {visited : List ModuleId}
    {id : ModuleId}
    {root : GraphModule}
    (hdepth : g.unseen visited < depth)
    (hroot : g.module? id = some root)
    (hopen : ∀ m, g.StarReach root m → g.Open m) :
    ∃ found, g.publicNames importer depth visited id = .ok found := by
  induction depth generalizing visited id root with
  | zero => exact absurd hdepth (Nat.not_lt_zero _)
  | succ depth ih =>
      obtain ⟨hlocal, hstars⟩ := hopen root .refl
      rw [publicNames_of_local hroot hlocal]
      cases hid : id.isAmong visited with
      | true => exact ⟨⟨[], visited⟩, rfl⟩
      | false =>
          have hcons := unseen_cons_lt hroot hid
          apply foldlM_followStar_eq_ok
          · intro source hsource visited' hvisited
            obtain ⟨b, dependency, hdependency, hb⟩ := hstars source hsource
            have hedge : g.StarEdge root b := ⟨source, hsource, dependency, hdependency, hb⟩
            obtain ⟨found, hfound⟩ := ih hvisited hb fun m hm => hopen m (.head hedge hm)
            exact ⟨dependency, found, hdependency, hfound⟩
          · show g.unseen (id :: visited) < depth
            omega

/-! ### The whole search -/

/-- A search from the start enters everything that is reached. -/
theorem Searched.new_of_starReach
    {root : GraphModule}
    {found : NameSearch}
    (h : g.Searched [] root (fun _ => False) found)
    (hroot : g.module? root.id = some root)
    {m : GraphModule}
    (hm : g.StarReach root m) :
    g.New [] found.visited m := by
  induction hm with
  | refl => exact ⟨hroot, h.started, rfl⟩
  | tail _ hedge ih =>
      obtain ⟨source, hsource, hleads⟩ := hedge
      obtain ⟨b, hb, hseen⟩ := (h.explored _ ih (fun h => h)).2 source hsource
      cases hb.unique hleads
      obtain ⟨id, -, hknown⟩ := hleads
      exact ⟨module?_id hknown, hseen, rfl⟩

/-- The public names of a module. -/
theorem mem_publicNames_iff
    {importer : String}
    {depth : Nat}
    {id : ModuleId}
    {root : GraphModule}
    {found : NameSearch}
    (hroot : g.module? id = some root)
    (h : g.publicNames importer depth [] id = .ok found)
    {n : String}
    (hn : n ≠ "default") :
    n ∈ found.names ↔ g.Provides root n := by
  obtain ⟨root', hroot', hsearched⟩ := searched_publicNames h
  rw [hroot] at hroot'
  cases hroot'
  rw [hsearched.names n hn]
  constructor
  · rintro ⟨m, hm, hname⟩
    exact ⟨m, hsearched.reached m hm, hname⟩
  · rintro ⟨m, hm, hname⟩
    exact ⟨m, hsearched.new_of_starReach (module?_id hroot) hm, hname⟩

/-- The public names of a module are found if and only if everything that is reached is open. -/
theorem publicNames_eq_ok_iff
    {id : ModuleId}
    {root : GraphModule}
    (hroot : g.module? id = some root)
    (importer : String) :
    (∃ found, g.publicNames importer (g.modules.length + 2) [] id = .ok found) ↔
      ∀ m, g.StarReach root m → g.Open m := by
  constructor
  · rintro ⟨found, h⟩ m hm
    obtain ⟨root', hroot', hsearched⟩ := searched_publicNames h
    rw [hroot] at hroot'
    cases hroot'
    have hnew := hsearched.new_of_starReach (module?_id hroot) hm
    obtain ⟨hlocal, hstars⟩ := hsearched.explored m hnew (fun h => h)
    refine ⟨hlocal, fun source hsource => ?_⟩
    obtain ⟨b, hleads, -⟩ := hstars source hsource
    exact ⟨b, hleads⟩
  · intro hopen
    apply publicNames_eq_ok _ hroot hopen
    have hcount : g.unseen [] ≤ g.modules.length := List.countP_le_length
    omega

end Graph
end EsModules
