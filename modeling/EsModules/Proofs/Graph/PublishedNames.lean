import EsModules.Proofs.Graph.Coherence
import EsModules.Proofs.Graph.StarChains

/-!
# Published names

A module publishes its own exports and, through `export *`, the names of other modules.  In a graph
whose modules are all resolved the search for the latter can fail only at a module of the host
(`publicNames_eq_error`), and it never runs out of depth (`publicNames_depth`).  When it succeeds no
name is published twice, and nothing that is reached is lost.
-/

namespace EsModules

namespace Graph

variable {g : Graph}

/-! ### Resolved modules -/

theorem Coherent.nodup_exportNames
    (hg : g.Coherent)
    {m : GraphModule}
    (hm : m ∈ g.modules) :
    m.catalog.exportNames.Nodup := by
  cases hg.genuine m hm with
  | external name => exact .nil
  | loaded hid hread hsources htargets hdone =>
      obtain ⟨name, text, catalog, -, -, hanalyze, rfl⟩ := readModule_eq_ok hread
      obtain ⟨program, -, hbuild⟩ := bind_eq_ok.mp hanalyze
      exact Catalog.nodup_exportNames hbuild

/-- Every path that a resolved module imports leads to the module that it stands for. -/
theorem Coherent.leadsTo_of_resolved
    (hg : g.Coherent)
    {m : GraphModule}
    (hm : m ∈ g.modules)
    (hresolved : m.resolved = true)
    {source : String}
    (hsource : source ∈ m.catalog.sources) :
    ∃ id b, m.dependency? source = some id ∧ g.target? m.id source = some id ∧
      g.module? id = some b := by
  have hlinked := hg.linked m hm
  cases hg.genuine m hm with
  | external name => cases hsource
  | @loaded path id read links rest done hid hread hsources htargets hdone =>
      obtain ⟨name, text, catalog, -, -, -, rfl⟩ := readModule_eq_ok hread
      have hsettled : (false || done) = true := hresolved
      rw [Bool.false_or] at hsettled
      rw [hdone hsettled, List.append_nil] at hsources
      have hmem : source ∈ links.map Prod.fst := hsources ▸ hsource
      have hsome : (links.find? (·.1 == source)).isSome = true := by
        obtain ⟨link, hlink, hname⟩ := List.mem_map.mp hmem
        exact List.find?_isSome.mpr ⟨link, hlink, by simpa using hname⟩
      obtain ⟨link, hfind⟩ := Option.isSome_iff_exists.mp hsome
      have hlink := List.mem_of_find?_eq_some hfind
      obtain rfl : link.1 = source := by simpa using List.find?_some hfind
      obtain ⟨b, hb⟩ :=
        hlinked link (by simpa [GraphModule.advance, GraphModule.loaded] using hlink)
      refine ⟨link.2, b, ?_, htargets link hlink, hb⟩
      simp [GraphModule.dependency?, GraphModule.advance, GraphModule.loaded, hfind]

/-- In a graph of resolved modules every star export leads to a module. -/
theorem Coherent.leadsTo_of_star
    (hg : g.Coherent)
    (hclosed : ∀ m ∈ g.modules, m.catalog.Closed)
    (hresolved : ∀ m ∈ g.modules, m.resolved = true)
    {m : GraphModule}
    (hm : m ∈ g.modules) :
    ∀ source ∈ m.catalog.stars, ∃ b, g.LeadsTo m source b := by
  intro source hsource
  obtain ⟨id, b, hid, -, hb⟩ :=
    hg.leadsTo_of_resolved hm (hresolved m hm) ((hclosed m hm).stars source hsource)
  exact ⟨b, id, hid, hb⟩

/-! ### Failure and depth of the search -/

/-- A step of the search leaves no more modules to enter than before. -/
theorem unseen_followStar
    {importer : String}
    {depth bound : Nat}
    {root : GraphModule}
    {search next : NameSearch}
    {source : String}
    (hsearch : g.unseen search.visited < bound)
    (h : g.followStar importer depth root search source = .ok next) :
    g.unseen next.visited < bound := by
  obtain ⟨dependency, -, h⟩ := bind_eq_ok.mp h
  obtain ⟨found, hfound, h⟩ := bind_eq_ok.mp h
  cases h
  obtain ⟨_, _, hsearched⟩ := searched_publicNames hfound
  exact Nat.lt_of_le_of_lt (unseen_le hsearched.grows) hsearch

theorem publicNames_of_external
    {id : ModuleId}
    {root : GraphModule}
    (hroot : g.module? id = some root)
    (hexternal : root.external = true)
    (importer : String)
    (depth : Nat)
    (visited : List ModuleId) :
    g.publicNames importer (depth + 1) visited id =
      .error (.unsupportedDeclaration importer
        s!"export * from external module '{root.name}'") := by
  rw [publicNames, requireModule_eq_ok.mpr hroot]
  change (if root.external = true then _ else _) = _
  rw [if_pos hexternal]
  rfl

/-- A search fails only at a module of the host. -/
theorem publicNames_eq_error
    (hlinked : ∀ m ∈ g.modules, ∀ source ∈ m.catalog.stars, ∃ b, g.LeadsTo m source b)
    {importer : String}
    {depth : Nat}
    {visited : List ModuleId}
    {id : ModuleId}
    {root : GraphModule}
    {e : GraphError}
    (hdepth : g.unseen visited < depth)
    (hroot : g.module? id = some root)
    (h : g.publicNames importer depth visited id = .error e) :
    ∃ b, g.StarReach root b ∧ b.external = true ∧
      e = .unsupportedDeclaration importer s!"export * from external module '{b.name}'" := by
  induction depth generalizing visited id root with
  | zero => omega
  | succ depth ih =>
      cases hlocal : root.external with
      | true =>
          rw [publicNames_of_external hroot hlocal] at h
          cases h
          exact ⟨root, .refl, hlocal, rfl⟩
      | false =>
          rw [publicNames_of_local hroot hlocal] at h
          cases hid : id.isAmong visited with
          | true =>
              rw [hid] at h
              cases h
          | false =>
              rw [hid] at h
              have henter : g.unseen (id :: visited) < depth := by
                have := unseen_cons_lt hroot hid
                omega
              obtain ⟨search, source, hsource, hsearch, hfail⟩ :=
                foldlM_eq_error (P := fun search => g.unseen search.visited < depth)
                  (fun _ _ _ _ hb hok => unseen_followStar hb hok) henter h
              obtain ⟨b, dependency, hdependency, hb⟩ :=
                hlinked root (mem_of_module? hroot) source hsource
              have hbelow : g.publicNames importer depth search.visited dependency = .error e := by
                rw [followStar, requireDependency_eq_ok.mpr hdependency] at hfail
                change g.publicNames importer depth search.visited dependency >>= _ = _ at hfail
                rcases bind_eq_error.mp hfail with hbelow | ⟨found, -, hdone⟩
                · exact hbelow
                · cases hdone
              obtain ⟨c, hreach, hexternal, herror⟩ := ih hsearch hb hbelow
              exact ⟨c, .head ⟨source, hsource, dependency, hdependency, hb⟩ hreach, hexternal,
                herror⟩

/-- A search that may go deep enough finds the same however deep it may go. -/
theorem publicNames_depth
    {importer : String}
    {depth depth' : Nat}
    {visited : List ModuleId}
    (hdepth : g.unseen visited < depth)
    (hdepth' : g.unseen visited < depth')
    (id : ModuleId) :
    g.publicNames importer depth visited id = g.publicNames importer depth' visited id := by
  induction depth generalizing depth' visited id with
  | zero => omega
  | succ depth ih =>
      obtain ⟨depth', rfl⟩ : ∃ k, depth' = k + 1 := ⟨depth' - 1, by omega⟩
      cases hroot : g.module? id with
      | none =>
          have hmissing : g.requireModule id = .error (.missingModule id.path) := by
            rw [requireModule, hroot]
          rw [publicNames, publicNames, hmissing]
          rfl
      | some root =>
          cases hlocal : root.external with
          | true => rw [publicNames_of_external hroot hlocal, publicNames_of_external hroot hlocal]
          | false =>
              rw [publicNames_of_local hroot hlocal, publicNames_of_local hroot hlocal]
              cases hid : id.isAmong visited with
              | true => rfl
              | false =>
                  have hless := unseen_cons_lt hroot hid
                  refine foldlM_congr_of
                    (P := fun search =>
                      g.unseen search.visited < depth ∧ g.unseen search.visited < depth') ?_ ?_ ?_
                  · intro search source next _ hsearch hok
                    exact ⟨unseen_followStar hsearch.1 hok, unseen_followStar hsearch.2 hok⟩
                  · intro search source _ hsearch
                    unfold followStar
                    congr 1
                    funext dependency
                    rw [ih hsearch.1 hsearch.2]
                  · exact ⟨show g.unseen (id :: visited) < depth by omega,
                      show g.unseen (id :: visited) < depth' by omega⟩

/-! ### Star accessors -/

theorem nodup_addAccessors
    {handle : String}
    {format : FormatOptions}
    {accessors : List (String × String)}
    {taken names : List String}
    (h : (accessors.map Prod.fst).Nodup) :
    ((addAccessors handle format accessors taken names).map Prod.fst).Nodup := by
  induction names generalizing accessors with
  | nil => exact h
  | cons first names ih =>
      rw [addAccessors_cons]
      apply ih
      split
      · exact h
      · rename_i hadd
        have hnew : first ∉ accessors.map Prod.fst := by
          intro hmem
          obtain ⟨entry, hentry, hname⟩ := List.mem_map.mp hmem
          have hany : accessors.any (·.1 == first) = true :=
            List.any_eq_true.mpr ⟨entry, hentry, by simpa using hname⟩
          simp [hany] at hadd
        simp only [List.map_append, List.map_cons, List.map_nil, List.nodup_append]
        refine ⟨h, by simp, ?_⟩
        intro n hn n' hn'
        rw [List.mem_singleton.mp hn']
        rintro rfl
        exact hnew hn

theorem nodup_starAccessors
    {m : GraphModule}
    {format : FormatOptions}
    {accessors : List (String × String)}
    (h : g.starAccessors m format = .ok accessors) :
    (accessors.map Prod.fst).Nodup := by
  rw [starAccessors_eq] at h
  refine foldlM_invariant (P := fun accessors => (accessors.map Prod.fst).Nodup) ?_ .nil h
  intro before source next hbefore hstep
  obtain ⟨handle, dependency, found, -, -, -, rfl⟩ := accessStar_eq_ok.mp hstep
  exact nodup_addAccessors hbefore

/-- A name comes through some star source if and only if a module below exports it. -/
theorem exists_firstSource_iff
    {m : GraphModule}
    {n : String} :
    (∃ source, g.FirstSource m n source) ↔
      ∃ b, Relation.TransGen g.StarEdge m b ∧ n ∈ b.catalog.exportNames := by
  classical
  constructor
  · rintro ⟨source, before, rest, hstars, ⟨b, hleads, c, hreach, hexports⟩, -⟩
    have hedge : g.StarEdge m b := ⟨source, by simp [hstars], hleads⟩
    exact ⟨c, .head' hedge hreach, hexports⟩
  · rintro ⟨c, hbelow, hexports⟩
    obtain ⟨b, ⟨source, hsource, hleads⟩, hreach⟩ := Relation.TransGen.head'_iff.mp hbelow
    have hbrings : g.Brings m n source := ⟨b, hleads, c, hreach, hexports⟩
    have hsome : (m.catalog.stars.find? (g.Brings m n)).isSome = true :=
      List.find?_isSome.mpr ⟨source, hsource, by simpa using hbrings⟩
    obtain ⟨first, hfirst⟩ := Option.isSome_iff_exists.mp hsome
    exact ⟨first, firstSource_iff.mpr hfirst⟩

/-- The names that come through star exports. -/
theorem mem_map_starAccessors_iff
    {m : GraphModule}
    {format : FormatOptions}
    {accessors : List (String × String)}
    (hclosed : m.catalog.Closed)
    (h : g.starAccessors m format = .ok accessors)
    {n : String} :
    n ∈ accessors.map Prod.fst ↔
      n ≠ "default" ∧ n ∉ m.catalog.exportNames ∧
        ∃ b, Relation.TransGen g.StarEdge m b ∧ n ∈ b.catalog.exportNames := by
  rw [← exists_firstSource_iff]
  constructor
  · intro hn
    obtain ⟨⟨_, value⟩, hmem, rfl⟩ := List.mem_map.mp hn
    obtain ⟨hdefault, hown, source, handle, hfirst, -, -⟩ := (mem_starAccessors_iff h).mp hmem
    exact ⟨hdefault, hown, source, hfirst⟩
  · rintro ⟨hdefault, hown, source, hfirst⟩
    have hsource : source ∈ m.catalog.stars := by
      obtain ⟨before, rest, hstars, -, -⟩ := hfirst
      simp [hstars]
    obtain ⟨handle, hhandle⟩ := Catalog.handle?_of_mem (hclosed.stars source hsource)
    exact List.mem_map.mpr ⟨_, (mem_starAccessors_iff h).mpr
      ⟨hdefault, hown, source, handle, hfirst, hhandle, rfl⟩, rfl⟩

/-- A module fails to get its accessors only at a module of the host. -/
theorem starAccessors_eq_error
    (hclosed : ∀ m ∈ g.modules, m.catalog.Closed)
    (hlinked : ∀ m ∈ g.modules, ∀ source ∈ m.catalog.stars, ∃ b, g.LeadsTo m source b)
    {m : GraphModule}
    (hm : m ∈ g.modules)
    {format : FormatOptions}
    {e : GraphError}
    (h : g.starAccessors m format = .error e) :
    ∃ b, Relation.TransGen g.StarEdge m b ∧ b.external = true ∧
      e = .unsupportedDeclaration m.name s!"export * from external module '{b.name}'" := by
  rw [starAccessors_eq] at h
  obtain ⟨accessors, source, hsource, -, hfail⟩ :=
    foldlM_eq_error (P := fun _ => True) (fun _ _ _ _ _ _ => trivial) trivial h
  obtain ⟨handle, hhandle⟩ := Catalog.handle?_of_mem ((hclosed m hm).stars source hsource)
  obtain ⟨c, dependency, hdependency, hc⟩ := hlinked m hm source hsource
  have hbelow : g.publicNames m.name (g.modules.length + 2) [] dependency = .error e := by
    unfold accessStar at hfail
    rw [hhandle, requireDependency_eq_ok.mpr hdependency] at hfail
    change g.publicNames m.name (g.modules.length + 2) [] dependency >>= _ = _ at hfail
    rcases bind_eq_error.mp hfail with hbelow | ⟨found, -, hdone⟩
    · exact hbelow
    · cases hdone
  have hcount : g.unseen [] ≤ g.modules.length := List.countP_le_length
  obtain ⟨b, hreach, hexternal, herror⟩ := publicNames_eq_error hlinked (by omega) hc hbelow
  exact ⟨b, .head' ⟨source, hsource, dependency, hdependency, hc⟩ hreach, hexternal, herror⟩

/-- What a module publishes: its own names and, apart from these and the default export, all names
of the modules below its star exports.  Each comes through a star source that publishes it. -/
structure Publishes
    (g : Graph)
    (m : GraphModule)
    (format : FormatOptions)
    (accessors : List (String × String)) :
    Prop where
  distinct : (m.catalog.exportNames ++ accessors.map Prod.fst).Nodup
  names : ∀ n, n ∈ accessors.map Prod.fst ↔
    n ≠ "default" ∧ n ∉ m.catalog.exportNames ∧
      ∃ b, Relation.TransGen g.StarEdge m b ∧ n ∈ b.catalog.exportNames
  handles : ∀ n value, (n, value) ∈ accessors →
    ∃ source ∈ m.catalog.stars, ∃ handle b more,
      m.catalog.handle? source = some handle ∧
      value = accessExpression handle (.named n) format ∧
      g.LeadsTo m source b ∧
      g.starAccessors b format = .ok more ∧
      n ∈ b.catalog.exportNames ++ more.map Prod.fst

theorem publishes_starAccessors
    (hg : g.Reached)
    {m : GraphModule}
    (hm : m ∈ g.modules)
    {format : FormatOptions}
    {accessors : List (String × String)}
    (h : g.starAccessors m format = .ok accessors) :
    g.Publishes m format accessors where
  distinct := by
    rw [List.nodup_append]
    refine ⟨hg.coherent.nodup_exportNames hm, nodup_starAccessors h, ?_⟩
    rintro n hown _ hstar rfl
    exact ((mem_map_starAccessors_iff (hg.closed m hm) h).mp hstar).2.1 hown
  names := fun n => mem_map_starAccessors_iff (hg.closed m hm) h
  handles := by
    intro n value hn
    obtain ⟨hdefault, -, source, handle, hfirst, hhandle, hvalue⟩ :=
      (mem_starAccessors_iff h).mp hn
    obtain ⟨before, rest, hstars, ⟨b, hleads, c, hreach, hexports⟩, -⟩ := hfirst
    have hsource : source ∈ m.catalog.stars := by simp [hstars]
    have hedge : g.StarEdge m b := ⟨source, hsource, hleads⟩
    obtain ⟨more, hmore⟩ := starAccessors_of_starReach h hg.closed (.single hedge)
    refine ⟨source, hsource, handle, b, more, hhandle, hvalue, hleads, hmore, ?_⟩
    have hb : b ∈ g.modules := mem_of_module? hedge.known
    by_cases hown : n ∈ b.catalog.exportNames
    · exact List.mem_append_left _ hown
    · apply List.mem_append_right
      rw [mem_map_starAccessors_iff (hg.closed b hb) hmore]
      refine ⟨hdefault, hown, c, ?_, hexports⟩
      rcases Relation.reflTransGen_iff_eq_or_transGen.mp hreach with rfl | hbelow
      · exact absurd hexports hown
      · exact hbelow

/-- In a graph of resolved modules the names that a module publishes through `export *` are found,
however its star exports are linked, unless one of them leads to a module of the host. -/
theorem starAccessors_publish
    (hg : g.Reached)
    (hresolved : ∀ m ∈ g.modules, m.resolved = true)
    {m : GraphModule}
    (hm : m ∈ g.modules)
    (format : FormatOptions) :
    (∀ depth id, g.modules.length < depth →
        g.publicNames m.name depth [] id = g.publicNames m.name (g.modules.length + 2) [] id) ∧
      ((∃ module kind, g.starAccessors m format = .error (.unsupportedDeclaration module kind)) ↔
        ∃ b, Relation.TransGen g.StarEdge m b ∧ b.external = true) ∧
      (∀ e, g.starAccessors m format = .error e →
        ∃ b, Relation.TransGen g.StarEdge m b ∧ b.external = true ∧
          e = .unsupportedDeclaration m.name s!"export * from external module '{b.name}'") ∧
      ∀ accessors, g.starAccessors m format = .ok accessors →
        g.Publishes m format accessors := by
  have hlinked : ∀ m ∈ g.modules, ∀ source ∈ m.catalog.stars, ∃ b, g.LeadsTo m source b :=
    fun m hm => hg.coherent.leadsTo_of_star hg.closed hresolved hm
  refine ⟨?_, ⟨?_, ?_⟩, ?_, ?_⟩
  · intro depth id hdepth
    have hcount : g.unseen [] ≤ g.modules.length := List.countP_le_length
    exact publicNames_depth (by omega) (by omega) id
  · rintro ⟨module, kind, herror⟩
    obtain ⟨b, hbelow, hexternal, -⟩ := starAccessors_eq_error hg.closed hlinked hm herror
    exact ⟨b, hbelow, hexternal⟩
  · rintro ⟨b, hbelow, hexternal⟩
    cases houtcome : g.starAccessors m format with
    | error e =>
        obtain ⟨c, -, -, rfl⟩ := starAccessors_eq_error hg.closed hlinked hm houtcome
        exact ⟨_, _, rfl⟩
    | ok accessors =>
        obtain ⟨c, ⟨source, hsource, hleads⟩, hreach⟩ := Relation.TransGen.head'_iff.mp hbelow
        obtain ⟨c', hleads', hopen⟩ := open_of_starAccessors houtcome source hsource
        cases hleads'.unique hleads
        rw [(hopen b hreach).1] at hexternal
        cases hexternal
  · exact fun e herror => starAccessors_eq_error hg.closed hlinked hm herror
  · exact fun accessors h => publishes_starAccessors hg hm h

/-- Two modules that export all names of each other, and one of them those of a module of the
host. -/
def hostStar : Graph :=
  after (addEntry "m")
    (.empty "/p"
      (.ofTexts
        [("/p/m.js", "export * from './a';\n"),
          ("/p/a.js", "export * from './m';\nexport * from 'host';\n")])
      (Resolver.defaults ["host"]))

/-- Star exports in a circle publish a name, and fail where the circle leads to the host. -/
theorem starAccessors_publish_starDetour_hostStar :
    (∃ m ∈ starDetour.modules, starDetour.starAccessors m {} = .ok [("x", "__imports_0__.x")] ∧
        starDetour.Publishes m {} [("x", "__imports_0__.x")]) ∧
      ∃ m ∈ hostStar.modules, ∃ b, Relation.TransGen hostStar.StarEdge m b ∧
        b.external = true ∧
        hostStar.starAccessors m {} = .error
          (.unsupportedDeclaration "m" s!"export * from external module '{b.name}'") := by
  have hfacts :
      starDetour.modules.all (·.resolved) = true ∧
        (starDetour.module? ⟨"/p/a.js"⟩).map (fun m => starDetour.starAccessors m {}) =
          some (.ok [("x", "__imports_0__.x")]) ∧
        hostStar.modules.all (·.resolved) = true ∧
        (hostStar.module? ⟨"/p/m.js"⟩).map (fun m => (m.name, hostStar.starAccessors m {})) =
          some ("m", .error
            (.unsupportedDeclaration "m" "export * from external module 'host'")) := by
    decide +kernel
  obtain ⟨hresolved, hdetour, hresolved', hhost⟩ := hfacts
  rw [List.all_eq_true] at hresolved hresolved'
  obtain ⟨a, ha, haccessors⟩ := Option.map_eq_some_iff.mp hdetour
  obtain ⟨m, hm, hfails⟩ := Option.map_eq_some_iff.mp hhost
  obtain ⟨hname, hfails⟩ := Prod.mk.inj hfails
  have hreached : hostStar.Reached := .addEntry (.empty _ _ _) _
  obtain ⟨-, -, -, hpublishes⟩ :=
    starAccessors_publish (reached_starPair _) hresolved (mem_of_module? ha) {}
  obtain ⟨-, -, herror, -⟩ := starAccessors_publish hreached hresolved' (mem_of_module? hm) {}
  obtain ⟨b, hbelow, hexternal, hmessage⟩ := herror _ hfails
  refine ⟨⟨a, mem_of_module? ha, haccessors, hpublishes _ haccessors⟩, m, mem_of_module? hm, b,
    hbelow, hexternal, ?_⟩
  rw [hfails, hmessage, hname]

end Graph
end EsModules
