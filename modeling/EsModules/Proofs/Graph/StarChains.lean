import EsModules.Graph.Output
import EsModules.Proofs.Catalog.Entries
import EsModules.Proofs.Graph.StarSearch
import EsModules.Proofs.Transpile.Outcome

/-!
# Chains of star exports

A name that a module publishes through `export *` is read from the first star source that brings
it, and the module behind that source may again read it from one of its own.  Every module takes
its choice on its own, so that with star exports in a circle the choices can lead around that
circle for ever.  They lead to a module that exports the name if and only if they do not.
-/

namespace EsModules

namespace Catalog

/-- A handle stands for one source. -/
theorem handle?_injective
    {c : Catalog}
    {first second handle : String}
    (hfirst : c.handle? first = some handle)
    (hsecond : c.handle? second = some handle) :
    first = second := by
  obtain ⟨i, hi, rfl⟩ := Option.map_eq_some_iff.mp hfirst
  obtain ⟨j, hj, hname⟩ := Option.map_eq_some_iff.mp hsecond
  have hij := handleName_injective hname
  subst hij
  obtain ⟨hi, hfirst, -⟩ := List.findIdx?_eq_some_iff_getElem.mp hi
  obtain ⟨_, hsecond, -⟩ := List.findIdx?_eq_some_iff_getElem.mp hj
  simp only [beq_iff_eq] at hfirst hsecond
  rw [← hfirst, ← hsecond]

end Catalog

theorem accessExpression_named_injective
    {first second n : String}
    {format : FormatOptions}
    (h : accessExpression first (.named n) format = accessExpression second (.named n) format) :
    first = second := by
  unfold accessExpression at h
  simp only at h
  split at h
  · have hpoint : first ++ "." ++ n = second ++ "." ++ n := h
    exact (String.append_left_inj _).mp ((String.append_left_inj _).mp hpoint)
  · have hbracket :
        first ++ "[" ++ format.quote n ++ "]" = second ++ "[" ++ format.quote n ++ "]" := h
    exact (String.append_left_inj _).mp
      ((String.append_left_inj _).mp ((String.append_left_inj _).mp hbracket))

namespace Graph

variable {g : Graph}

theorem addAccessors_cons
    (handle : String)
    (format : FormatOptions)
    (accessors : List (String × String))
    (taken names : List String)
    (first : String) :
    addAccessors handle format accessors taken (first :: names) =
      addAccessors handle format
        (if first == "default" || taken.contains first || accessors.any (·.1 == first) then
          accessors
        else accessors ++ [(first, accessExpression handle (.named first) format)])
        taken names :=
  rfl

theorem mem_addAccessors
    {handle : String}
    {format : FormatOptions}
    {accessors : List (String × String)}
    {taken names : List String}
    {n value : String} :
    (n, value) ∈ addAccessors handle format accessors taken names ↔
      (n, value) ∈ accessors ∨
        n ∈ names ∧ n ≠ "default" ∧ n ∉ taken ∧ n ∉ accessors.map Prod.fst ∧
          value = accessExpression handle (.named n) format := by
  induction names generalizing accessors with
  | nil => simp [addAccessors]
  | cons first names ih =>
      rw [addAccessors_cons, ih]
      by_cases hskip : first = "default" ∨ first ∈ taken ∨ first ∈ accessors.map Prod.fst
      · have hkeep : (first == "default" || taken.contains first ||
            accessors.any (·.1 == first)) = true := by
          simpa [or_assoc] using hskip
        rw [if_pos hkeep]
        grind
      · have hadd : ¬(first == "default" || taken.contains first ||
            accessors.any (·.1 == first)) = true := by
          simpa [or_assoc] using hskip
        rw [if_neg hadd]
        simp only [List.map_append, List.mem_append, List.map_cons, List.map_nil, List.mem_cons,
          Prod.mk.injEq]
        grind

/-- A star source of a module stands for one that provides a name. -/
def Brings (g : Graph) (a : GraphModule) (n source : String) : Prop :=
  ∃ b, g.LeadsTo a source b ∧ g.Provides b n

/-- The first star source of a module that brings a name. -/
def FirstSource (g : Graph) (a : GraphModule) (n source : String) : Prop :=
  ∃ before rest,
    a.catalog.stars = before ++ source :: rest ∧
      g.Brings a n source ∧ ∀ other ∈ before, ¬g.Brings a n other

open Classical in
theorem firstSource_iff
    {a : GraphModule}
    {n source : String} :
    g.FirstSource a n source ↔ a.catalog.stars.find? (g.Brings a n) = some source := by
  rw [List.find?_eq_some_iff_append]
  constructor
  · rintro ⟨before, rest, hstars, hbrings, hbefore⟩
    exact ⟨by simpa using hbrings, before, rest, hstars, by simpa using hbefore⟩
  · rintro ⟨hbrings, before, rest, hstars, hbefore⟩
    exact ⟨before, rest, hstars, by simpa using hbrings, by simpa using hbefore⟩

/-- The accessors for the names of one more star source. -/
def accessStar
    (g : Graph)
    (a : GraphModule)
    (format : FormatOptions)
    (accessors : List (String × String))
    (source : String) :
    Except GraphError (List (String × String)) := do
  let handle ← match a.catalog.handle? source with
    | some handle => pure handle
    | none => throw (.transpile (.missingCatalogEntry s!"handle for '{source}'"))
  let dependency ← requireDependency a source
  let found ← g.publicNames a.name (g.modules.length + 2) [] dependency
  return addAccessors handle format accessors a.catalog.exportNames found.names

theorem starAccessors_eq (g : Graph) (a : GraphModule) (format : FormatOptions) :
    g.starAccessors a format = a.catalog.stars.foldlM (g.accessStar a format) [] :=
  rfl

theorem accessStar_eq_ok
    {a : GraphModule}
    {format : FormatOptions}
    {accessors next : List (String × String)}
    {source : String} :
    g.accessStar a format accessors source = .ok next ↔
      ∃ handle dependency found,
        a.catalog.handle? source = some handle ∧
        a.dependency? source = some dependency ∧
        g.publicNames a.name (g.modules.length + 2) [] dependency = .ok found ∧
        next = addAccessors handle format accessors a.catalog.exportNames found.names := by
  unfold accessStar
  constructor
  · intro h
    cases hhandle : a.catalog.handle? source with
    | none =>
        rw [hhandle] at h
        cases h
    | some handle =>
        rw [hhandle] at h
        obtain ⟨_, hpure, h⟩ := bind_eq_ok.mp h
        cases hpure
        obtain ⟨dependency, hdependency, h⟩ := bind_eq_ok.mp h
        obtain ⟨found, hfound, h⟩ := bind_eq_ok.mp h
        cases h
        exact ⟨handle, dependency, found, rfl, requireDependency_eq_ok.mp hdependency, hfound, rfl⟩
  · rintro ⟨handle, dependency, found, hhandle, hdependency, hfound, rfl⟩
    rw [hhandle]
    refine bind_eq_ok.mpr ⟨handle, rfl, bind_eq_ok.mpr ⟨dependency, ?_, ?_⟩⟩
    · exact requireDependency_eq_ok.mpr hdependency
    · exact bind_eq_ok.mpr ⟨found, hfound, rfl⟩

open Classical in
/-- The accessors of a module: each name is read from the first star source that brings it. -/
theorem mem_starAccessors_iff
    {a : GraphModule}
    {format : FormatOptions}
    {accessors : List (String × String)}
    (h : g.starAccessors a format = .ok accessors)
    {n value : String} :
    (n, value) ∈ accessors ↔
      n ≠ "default" ∧ n ∉ a.catalog.exportNames ∧
        ∃ source handle, g.FirstSource a n source ∧ a.catalog.handle? source = some handle ∧
          value = accessExpression handle (.named n) format := by
  have hloop := foldlM_run
    (P := fun done accessors =>
      (∀ source ∈ done, ∃ handle, a.catalog.handle? source = some handle) ∧
        ∀ n value, (n, value) ∈ accessors ↔
          n ≠ "default" ∧ n ∉ a.catalog.exportNames ∧
            ∃ source handle, done.find? (g.Brings a n) = some source ∧
              a.catalog.handle? source = some handle ∧
              value = accessExpression handle (.named n) format)
    ?_ [] ?_ h
  · simp only [firstSource_iff]
    exact hloop.2 n value
  · rintro done accessors source next - ⟨hhandles, haccessors⟩ hstep
    obtain ⟨handle, dependency, found, hhandle, hdependency, hfound, rfl⟩ :=
      accessStar_eq_ok.mp hstep
    have hmore : ∀ n, n ≠ "default" → (n ∈ found.names ↔ g.Brings a n source) := by
      intro n hn
      obtain ⟨b, hb, -⟩ := searched_publicNames hfound
      rw [mem_publicNames_iff hb hfound hn]
      constructor
      · intro hprovides
        exact ⟨b, ⟨dependency, hdependency, hb⟩, hprovides⟩
      · rintro ⟨c, hleads, hprovides⟩
        rw [LeadsTo.unique ⟨dependency, hdependency, hb⟩ hleads]
        exact hprovides
    refine ⟨?_, ?_⟩
    · intro other hother
      rcases List.mem_append.mp hother with hother | hother
      · exact hhandles other hother
      · rw [List.mem_singleton.mp hother]
        exact ⟨handle, hhandle⟩
    · intro n value
      rw [mem_addAccessors, haccessors, List.find?_append]
      have hnames : n ∈ accessors.map Prod.fst ↔
          n ≠ "default" ∧ n ∉ a.catalog.exportNames ∧
            (done.find? (g.Brings a n)).isSome = true := by
        constructor
        · intro hn
          obtain ⟨⟨_, value⟩, hmem, rfl⟩ := List.mem_map.mp hn
          obtain ⟨hdefault, hown, first, _, hfirst, -, -⟩ := (haccessors _ value).mp hmem
          exact ⟨hdefault, hown, by rw [hfirst]; rfl⟩
        · rintro ⟨hdefault, hown, hsome⟩
          obtain ⟨first, hfirst⟩ := Option.isSome_iff_exists.mp hsome
          obtain ⟨handle, hhandle⟩ := hhandles first (List.mem_of_find?_eq_some hfirst)
          exact List.mem_map.mpr ⟨_, (haccessors n _).mpr
            ⟨hdefault, hown, first, handle, hfirst, hhandle, rfl⟩, rfl⟩
      rw [hnames]
      by_cases hn : n ≠ "default" ∧ n ∉ a.catalog.exportNames
      · rw [hmore n hn.1]
        cases hfirst : done.find? (g.Brings a n) with
        | some first => simp [hn.1, hn.2]
        | none =>
            by_cases hbrings : g.Brings a n source
            · simp [hn.1, hn.2, hbrings, hhandle]
            · simp [hn.1, hn.2, hbrings]
      · grind
  · exact ⟨by simp, by simp⟩

/-- A module has accessors only if everything behind its star sources is open. -/
theorem open_of_starAccessors
    {a : GraphModule}
    {format : FormatOptions}
    {accessors : List (String × String)}
    (h : g.starAccessors a format = .ok accessors) :
    ∀ source ∈ a.catalog.stars, ∃ b, g.LeadsTo a source b ∧ ∀ m, g.StarReach b m → g.Open m := by
  refine foldlM_run
    (P := fun done (_ : List (String × String)) => ∀ source ∈ done,
      ∃ b, g.LeadsTo a source b ∧ ∀ m, g.StarReach b m → g.Open m) ?_ [] (by simp) h
  intro done accessors source next _ hdone hstep other hother
  rcases List.mem_append.mp hother with hother | hother
  · exact hdone other hother
  · rw [List.mem_singleton.mp hother]
    obtain ⟨_, dependency, found, -, hdependency, hfound, -⟩ := accessStar_eq_ok.mp hstep
    obtain ⟨b, hb, -⟩ := searched_publicNames hfound
    exact ⟨b, ⟨dependency, hdependency, hb⟩, (publicNames_eq_ok_iff hb a.name).mp ⟨found, hfound⟩⟩

/-- One step succeeds where the source has a handle and everything behind it is open. -/
theorem exists_accessStar
    {a b : GraphModule}
    {source : String}
    (hsource : source ∈ a.catalog.sources)
    (hleads : g.LeadsTo a source b)
    (hopen : ∀ m, g.StarReach b m → g.Open m)
    (format : FormatOptions)
    (accessors : List (String × String)) :
    ∃ next, g.accessStar a format accessors source = .ok next := by
  obtain ⟨handle, hhandle⟩ := Catalog.handle?_of_mem hsource
  obtain ⟨dependency, hdependency, hb⟩ := hleads
  obtain ⟨found, hfound⟩ := (publicNames_eq_ok_iff hb a.name).mpr hopen
  exact ⟨_, accessStar_eq_ok.mpr ⟨handle, dependency, found, hhandle, hdependency, hfound, rfl⟩⟩

/-- The loop over star sources comes to its end if no step of it fails. -/
theorem exists_foldlM_accessStar
    {a : GraphModule}
    {format : FormatOptions}
    {sources : List String}
    (hstep : ∀ source ∈ sources, ∀ accessors,
      ∃ next, g.accessStar a format accessors source = .ok next)
    (accessors : List (String × String)) :
    ∃ next, sources.foldlM (g.accessStar a format) accessors = .ok next := by
  induction sources generalizing accessors with
  | nil => exact ⟨accessors, rfl⟩
  | cons source sources ih =>
      obtain ⟨next, hnext⟩ := hstep source List.mem_cons_self accessors
      rw [List.foldlM_cons, hnext]
      exact ih (fun other hother => hstep other (List.mem_cons_of_mem _ hother)) next

theorem starAccessors_eq_ok
    {a : GraphModule}
    (hclosed : a.catalog.Closed)
    (format : FormatOptions)
    (hopen :
      ∀ source ∈ a.catalog.stars, ∃ b, g.LeadsTo a source b ∧ ∀ m, g.StarReach b m → g.Open m) :
    ∃ accessors, g.starAccessors a format = .ok accessors := by
  refine exists_foldlM_accessStar (fun source hsource accessors => ?_) []
  obtain ⟨b, hleads, hreach⟩ := hopen source hsource
  exact exists_accessStar (hclosed.stars source hsource) hleads hreach format accessors

theorem StarEdge.known
    {a b : GraphModule}
    (h : g.StarEdge a b) :
    g.module? b.id = some b := by
  obtain ⟨source, -, id, -, hb⟩ := h
  exact module?_id hb

theorem StarReach.known
    {a b : GraphModule}
    (ha : g.module? a.id = some a)
    (h : g.StarReach a b) :
    g.module? b.id = some b := by
  cases h with
  | refl => exact ha
  | tail _ hedge => exact hedge.known

/-- If a module has accessors, so has everything that is reached from it. -/
theorem starAccessors_of_starReach
    {a b : GraphModule}
    {format : FormatOptions}
    {accessors : List (String × String)}
    (h : g.starAccessors a format = .ok accessors)
    (hclosed : ∀ m ∈ g.modules, m.catalog.Closed)
    (hreach : g.StarReach a b) :
    ∃ more, g.starAccessors b format = .ok more := by
  induction hreach with
  | refl => exact ⟨accessors, h⟩
  | @tail m b _ hedge ih =>
      obtain ⟨found, hfound⟩ := ih
      obtain ⟨source, hsource, hleads⟩ := hedge
      obtain ⟨c, hc, hopen⟩ := open_of_starAccessors hfound source hsource
      cases hc.unique hleads
      have hb : b.catalog.Closed := by
        obtain ⟨id, -, hid⟩ := hleads
        exact hclosed b (mem_of_module? hid)
      apply starAccessors_eq_ok hb
      intro other hother
      obtain ⟨d, hd⟩ := (hopen b .refl).2 other hother
      exact ⟨d, hd, fun m hm => hopen m (.head ⟨other, hother, hd⟩ hm)⟩

/-! ### Chains -/

/-- The accessor of a module for a name reads it on the handle of a source that stands for another
module. -/
def ReadsFrom (g : Graph) (format : FormatOptions) (n : String) (a b : GraphModule) : Prop :=
  ∃ accessors source handle,
    g.starAccessors a format = .ok accessors ∧
    a.catalog.handle? source = some handle ∧
    (n, accessExpression handle (.named n) format) ∈ accessors ∧
    g.LeadsTo a source b

/-- A module that does not export a name leaves it to its first star source that brings it. -/
def Passes (g : Graph) (n : String) (a b : GraphModule) : Prop :=
  n ∉ a.catalog.exportNames ∧ ∃ source, g.FirstSource a n source ∧ g.LeadsTo a source b

/-- From one module to the next a name is passed around a circle. -/
def Circular (g : Graph) (n : String) (a : GraphModule) : Prop :=
  ∃ b, Relation.ReflTransGen (g.Passes n) a b ∧ Relation.TransGen (g.Passes n) b b

theorem ReadsFrom.passes
    {a b : GraphModule}
    {format : FormatOptions}
    {n : String}
    (h : g.ReadsFrom format n a b) :
    g.Passes n a b := by
  obtain ⟨accessors, source, handle, haccessors, hhandle, hmem, hleads⟩ := h
  obtain ⟨-, hown, first, handle', hfirst, hhandle', hvalue⟩ :=
    (mem_starAccessors_iff haccessors).mp hmem
  cases accessExpression_named_injective hvalue
  cases Catalog.handle?_injective hhandle hhandle'
  exact ⟨hown, source, hfirst, hleads⟩

theorem Passes.readsFrom
    {a b : GraphModule}
    {format : FormatOptions}
    {accessors : List (String × String)}
    {n : String}
    (h : g.Passes n a b)
    (haccessors : g.starAccessors a format = .ok accessors)
    (hclosed : a.catalog.Closed)
    (hn : n ≠ "default") :
    g.ReadsFrom format n a b := by
  obtain ⟨hown, source, hfirst, hleads⟩ := h
  have hstar : source ∈ a.catalog.stars := by
    obtain ⟨before, rest, hstars, -⟩ := hfirst
    rw [hstars]
    simp
  obtain ⟨handle, hhandle⟩ := Catalog.handle?_of_mem (hclosed.stars source hstar)
  refine ⟨accessors, source, handle, haccessors, hhandle, ?_, hleads⟩
  exact (mem_starAccessors_iff haccessors).mpr ⟨hn, hown, source, handle, hfirst, hhandle, rfl⟩

theorem Passes.starEdge
    {n : String}
    {a b : GraphModule}
    (h : g.Passes n a b) :
    g.StarEdge a b := by
  obtain ⟨-, source, ⟨before, rest, hstars, -⟩, hleads⟩ := h
  refine ⟨source, ?_, hleads⟩
  rw [hstars]
  simp

theorem starReach_of_passes
    {n : String}
    {a b : GraphModule}
    (h : Relation.ReflTransGen (g.Passes n) a b) :
    g.StarReach a b :=
  h.lift id fun _ _ => Passes.starEdge

open Classical in
theorem rightUnique_passes (n : String) : Relator.RightUnique (g.Passes n) := by
  rintro a b c ⟨-, source, hsource, hb⟩ ⟨-, source', hsource', hc⟩
  rw [firstSource_iff] at hsource hsource'
  rw [hsource] at hsource'
  cases hsource'
  exact hb.unique hc

open Classical in
/-- A module that provides a name exports it or passes it on to another one that provides it. -/
theorem Provides.exports_or_passes
    {a : GraphModule}
    {n : String}
    (h : g.Provides a n) :
    n ∈ a.catalog.exportNames ∨ ∃ b, g.Passes n a b ∧ g.Provides b n := by
  by_cases hown : n ∈ a.catalog.exportNames
  · exact .inl hown
  · right
    obtain ⟨m, hreach, hm⟩ := h
    rcases Relation.ReflTransGen.cases_head hreach with rfl | ⟨b, ⟨source, hsource, hleads⟩, hrest⟩
    · exact absurd hm hown
    · have hsome : (a.catalog.stars.find? (g.Brings a n)).isSome = true := by
        rw [List.find?_isSome]
        exact ⟨source, hsource, by simpa using ⟨b, hleads, m, hrest, hm⟩⟩
      obtain ⟨first, hfirst⟩ := Option.isSome_iff_exists.mp hsome
      obtain ⟨c, hc, hprovides⟩ : g.Brings a n first := by
        simpa using List.find?_some hfirst
      exact ⟨c, ⟨hown, first, firstSource_iff.mpr hfirst, hc⟩, hprovides⟩

/-- What lies behind a circle lies on it. -/
theorem transGen_passes_of_reflTransGen
    {n : String}
    {a b : GraphModule}
    (hcircle : Relation.TransGen (g.Passes n) a a)
    (h : Relation.ReflTransGen (g.Passes n) a b) :
    Relation.TransGen (g.Passes n) b b := by
  induction h with
  | refl => exact hcircle
  | @tail b c _ hlast ih =>
      obtain ⟨d, hfirst, hback⟩ := Relation.TransGen.head'_iff.mp ih
      cases rightUnique_passes n hfirst hlast
      exact Relation.TransGen.tail' hback hlast

/-- A name that is passed around a circle never comes to a module that exports it. -/
theorem Circular.not_ends
    {n : String}
    {a b : GraphModule}
    (h : g.Circular n a)
    (hb : Relation.ReflTransGen (g.Passes n) a b) :
    n ∉ b.catalog.exportNames := by
  obtain ⟨c, hc, hcircle⟩ := h
  have hpasses : Relation.TransGen (g.Passes n) b b ∨ Relation.ReflTransGen (g.Passes n) b c := by
    rcases Relation.ReflTransGen.total_of_right_unique (rightUnique_passes n) hb hc with hbc | hcb
    · exact .inr hbc
    · exact .inl (transGen_passes_of_reflTransGen hcircle hcb)
  have hnext : ∃ d, g.Passes n b d := by
    rcases hpasses with hb | hbc
    · obtain ⟨d, hd, -⟩ := Relation.TransGen.head'_iff.mp hb
      exact ⟨d, hd⟩
    · rcases Relation.ReflTransGen.cases_head hbc with rfl | ⟨d, hd, -⟩
      · obtain ⟨d, hd, -⟩ := Relation.TransGen.head'_iff.mp hcircle
        exact ⟨d, hd⟩
      · exact ⟨d, hd⟩
  obtain ⟨d, hown, -⟩ := hnext
  exact hown

/-- A name that is not passed around a circle comes to a module that exports it: no module is
among those that lie on the way to it. -/
theorem ends_of_not_circular
    {n : String}
    {a : GraphModule}
    (way : List GraphModule)
    (hway : ∀ m ∈ way, g.module? m.id = some m ∧ Relation.TransGen (g.Passes n) m a)
    (ha : g.module? a.id = some a)
    (hprovides : g.Provides a n)
    (hcircular : ¬g.Circular n a) :
    ∃ b, Relation.ReflTransGen (g.Passes n) a b ∧ n ∈ b.catalog.exportNames := by
  have hnew : a.id.isAmong (way.map (·.id)) = false := by
    by_contra hold
    have hseen : a.id.isAmong (way.map (·.id)) = true := by simpa using hold
    obtain ⟨id, hid, hsame⟩ := List.any_eq_true.mp hseen
    obtain ⟨m, hm, rfl⟩ := List.mem_map.mp hid
    obtain ⟨hknown, hpasses⟩ := hway m hm
    rw [← module?_congr hsame, ha] at hknown
    cases hknown
    exact hcircular ⟨a, .refl, hpasses⟩
  rcases hprovides.exports_or_passes with hown | ⟨b, hpass, hb⟩
  · exact ⟨a, .refl, hown⟩
  · have hless := unseen_cons_lt ha hnew
    obtain ⟨c, hc, hown⟩ := ends_of_not_circular (a :: way)
      (by
        intro m hm
        rcases List.mem_cons.mp hm with rfl | hm
        · exact ⟨ha, .single hpass⟩
        · obtain ⟨hknown, hpasses⟩ := hway m hm
          exact ⟨hknown, hpasses.tail hpass⟩)
      hpass.starEdge.known hb
      (by
        rintro ⟨c, hc, hcircle⟩
        exact hcircular ⟨c, .head hpass hc, hcircle⟩)
    exact ⟨c, .head hpass hc, hown⟩
termination_by g.unseen (way.map (·.id))

theorem reflTransGen_passes_of_readsFrom
    {a b : GraphModule}
    {n : String}
    {format : FormatOptions}
    (h : Relation.ReflTransGen (g.ReadsFrom format n) a b) :
    Relation.ReflTransGen (g.Passes n) a b :=
  h.lift id fun _ _ => ReadsFrom.passes

/-- Where everything that is reached has accessors, what is passed on is read. -/
theorem reflTransGen_readsFrom_of_passes
    {a b : GraphModule}
    {n : String}
    {format : FormatOptions}
    (hread : ∀ b c, g.StarReach a b → g.Passes n b c → g.ReadsFrom format n b c)
    (h : Relation.ReflTransGen (g.Passes n) a b) :
    Relation.ReflTransGen (g.ReadsFrom format n) a b := by
  induction h with
  | refl => exact .refl
  | tail hrest hpass ih => exact ih.tail (hread _ _ (starReach_of_passes hrest) hpass)

theorem circular_iff_readsFrom
    {a : GraphModule}
    {n : String}
    {format : FormatOptions}
    (hread : ∀ b c, g.StarReach a b → g.Passes n b c → g.ReadsFrom format n b c) :
    g.Circular n a ↔
      ∃ b, Relation.ReflTransGen (g.ReadsFrom format n) a b ∧
        Relation.TransGen (g.ReadsFrom format n) b b := by
  constructor
  · rintro ⟨b, hb, hcircle⟩
    have hreach := starReach_of_passes hb
    obtain ⟨c, hpass, hback⟩ := Relation.TransGen.head'_iff.mp hcircle
    refine ⟨b, reflTransGen_readsFrom_of_passes hread hb, ?_⟩
    refine Relation.TransGen.head' (hread b c hreach hpass) ?_
    apply reflTransGen_readsFrom_of_passes _ hback
    intro d e hd
    exact hread d e ((hreach.tail hpass.starEdge).trans hd)
  · rintro ⟨b, hb, hcircle⟩
    exact ⟨b, reflTransGen_passes_of_readsFrom hb, hcircle.lift id fun _ _ => ReadsFrom.passes⟩

/-- A name that a module publishes through `export *` is read, from one accessor to the next, from
a module that exports it if and only if the choices of the modules do not pass it around a circle;
the accessors come back to a module if and only if they do.  Without a circle of star exports
there is none. -/
theorem star_chain_ends_iff
    (hg : g.Reached)
    {id : ModuleId}
    {m : GraphModule}
    (hm : g.module? id = some m)
    {format : FormatOptions}
    {accessors : List (String × String)}
    (h : g.starAccessors m format = .ok accessors)
    {n value : String}
    (hn : (n, value) ∈ accessors) :
    ((∃ b, Relation.ReflTransGen (g.ReadsFrom format n) m b ∧ n ∈ b.catalog.exportNames) ↔
        ¬g.Circular n m) ∧
      ((∀ b, Relation.ReflTransGen (g.ReadsFrom format n) m b →
          ¬Relation.TransGen (g.ReadsFrom format n) b b) ↔ ¬g.Circular n m) ∧
      ((∀ b, g.StarReach m b → ¬Relation.TransGen g.StarEdge b b) → ¬g.Circular n m) := by
  obtain ⟨hdefault, -, source, handle, hfirst, -, -⟩ := (mem_starAccessors_iff h).mp hn
  have hread : ∀ b c, g.StarReach m b → g.Passes n b c → g.ReadsFrom format n b c := by
    intro b c hb hpasses
    obtain ⟨more, hmore⟩ := starAccessors_of_starReach h hg.closed hb
    have hknown := hb.known (module?_id hm)
    exact hpasses.readsFrom hmore (hg.closed b (mem_of_module? hknown)) hdefault
  have hprovides : g.Provides m n := by
    obtain ⟨before, rest, hstars, ⟨b, hleads, c, hreach, hexports⟩, -⟩ := hfirst
    refine ⟨c, .head ⟨source, ?_, hleads⟩ hreach, hexports⟩
    rw [hstars]
    simp
  refine ⟨?_, ?_, ?_⟩
  · constructor
    · rintro ⟨b, hb, hexports⟩ hcircular
      exact hcircular.not_ends (reflTransGen_passes_of_readsFrom hb) hexports
    · intro hcircular
      obtain ⟨b, hb, hexports⟩ :=
        ends_of_not_circular [] (by simp) (module?_id hm) hprovides hcircular
      exact ⟨b, reflTransGen_readsFrom_of_passes hread hb, hexports⟩
  · rw [circular_iff_readsFrom hread]
    simp only [not_exists, not_and]
  · rintro hacyclic ⟨b, hb, hcircle⟩
    refine hacyclic b (starReach_of_passes hb) ?_
    exact hcircle.lift (fun m => m) fun _ _ => Passes.starEdge

/-- Three modules: two export all names of each other, and the first one those of a third. -/
def starPair (first : String) : Graph :=
  after (addEntry "m")
    (.empty "/p"
      (.ofTexts
        [("/p/m.js", first), ("/p/a.js", "export * from './m';\n"),
          ("/p/b.js", "export var x = 1;\n")])
      (Resolver.defaults []))

theorem reached_starPair (first : String) : (starPair first).Reached :=
  .addEntry (.empty _ _ _) _

/-- What a module reads through one of its sources. -/
structure Reading where
  accessors : Option (List (String × String))
  handle : Option String
  target : Option String
  names : List String
  deriving DecidableEq

def reading? (g : Graph) (id : ModuleId) (source : String) : Option Reading :=
  (g.module? id).map fun m =>
    ⟨(g.starAccessors m {}).toOption, m.catalog.handle? source,
      (m.dependency? source).map (·.path), m.catalog.exportNames⟩

theorem module?_of_reading?
    {id : ModuleId}
    {source : String}
    {r : Reading}
    (h : g.reading? id source = some r) :
    ∃ a, g.module? id = some a ∧ a.catalog.exportNames = r.names := by
  obtain ⟨a, ha, rfl⟩ := Option.map_eq_some_iff.mp h
  exact ⟨a, ha, rfl⟩

theorem readsFrom_of_reading?
    {id : ModuleId}
    {source handle path n : String}
    {accessors : List (String × String)}
    {names : List String}
    (h : g.reading? id source = some ⟨some accessors, some handle, some path, names⟩)
    (hn : (n, accessExpression handle (.named n) {}) ∈ accessors)
    {b : GraphModule}
    (hb : g.module? ⟨path⟩ = some b) :
    ∃ a, g.module? id = some a ∧ g.starAccessors a {} = .ok accessors ∧ g.ReadsFrom {} n a b := by
  obtain ⟨a, ha, hfacts⟩ := Option.map_eq_some_iff.mp h
  simp only [Reading.mk.injEq] at hfacts
  obtain ⟨haccessors, hhandle, hpath, -⟩ := hfacts
  have hok : g.starAccessors a {} = .ok accessors := by
    cases hstar : g.starAccessors a {} with
    | error e =>
        rw [hstar] at haccessors
        cases haccessors
    | ok found =>
        rw [hstar] at haccessors
        cases haccessors
        rfl
  obtain ⟨dependency, hdependency, rfl⟩ := Option.map_eq_some_iff.mp hpath
  exact ⟨a, ha, hok, accessors, source, handle, hok, hhandle, hn, dependency, hdependency, hb⟩

/-- The module that exports `x` comes first. -/
def starDetour : Graph :=
  starPair "export * from './b';\nexport * from './a';\n"

/-- The other module is found through the circle. -/
theorem star_chain_ends_starDetour :
    ∃ a accessors,
      starDetour.module? ⟨"/p/a.js"⟩ = some a ∧
      starDetour.starAccessors a {} = .ok accessors ∧
      ("x", "__imports_0__.x") ∈ accessors ∧ ¬starDetour.Circular "x" a := by
  have hfacts :
      starDetour.reading? ⟨"/p/a.js"⟩ "./m" =
          some ⟨some [("x", "__imports_0__.x")], some "__imports_0__", some "/p/m.js", []⟩ ∧
        starDetour.reading? ⟨"/p/m.js"⟩ "./b" =
          some ⟨some [("x", "__imports_0__.x")], some "__imports_0__", some "/p/b.js", []⟩ ∧
        starDetour.reading? ⟨"/p/b.js"⟩ "" = some ⟨some [], none, none, ["x"]⟩ := by
    decide +kernel
  obtain ⟨ha, hm, hb⟩ := hfacts
  obtain ⟨b, hb, hexports⟩ := module?_of_reading? hb
  obtain ⟨m, hm, -, hlast⟩ := readsFrom_of_reading? (n := "x") hm (by decide +kernel) hb
  obtain ⟨a, ha, haccessors, hfirst⟩ :=
    readsFrom_of_reading? (n := "x") ha (by decide +kernel) hm
  have hmem : ("x", "__imports_0__.x") ∈ [("x", "__imports_0__.x")] := by simp
  have hends := (star_chain_ends_iff (reached_starPair _) ha haccessors hmem).1
  refine ⟨a, _, ha, haccessors, hmem, hends.mp ⟨b, .head hfirst (.single hlast), ?_⟩⟩
  rw [hexports]
  decide

/-- The module that exports `x` comes last. -/
def starCircle : Graph :=
  starPair "export * from './a';\nexport * from './b';\n"

/-- All modules have a program, and two of them read `x` from each other. -/
theorem star_chain_circles_starCircle :
    starCircle.Reached ∧
    starCircle.modules.all (·.resolved) = true ∧
    (starCircle.build .system {}).toOption.isSome = true ∧
    ∃ m accessors,
      starCircle.module? ⟨"/p/m.js"⟩ = some m ∧
      starCircle.starAccessors m {} = .ok accessors ∧
      ("x", "__imports_0__.x") ∈ accessors ∧
      (¬∃ b, Relation.ReflTransGen (starCircle.ReadsFrom {} "x") m b ∧
        "x" ∈ b.catalog.exportNames) ∧
      Relation.TransGen (starCircle.ReadsFrom {} "x") m m := by
  have hfacts :
      starCircle.modules.all (·.resolved) = true ∧
        (starCircle.build .system {}).toOption.isSome = true ∧
        starCircle.reading? ⟨"/p/m.js"⟩ "./a" =
          some ⟨some [("x", "__imports_0__.x")], some "__imports_0__", some "/p/a.js", []⟩ ∧
        starCircle.reading? ⟨"/p/a.js"⟩ "./m" =
          some ⟨some [("x", "__imports_0__.x")], some "__imports_0__", some "/p/m.js", []⟩ := by
    simp +unfoldPartialApp only [build, formatModule, Transpile.transpileFor_eq]
    decide +kernel
  obtain ⟨hresolved, hbuild, hm, ha⟩ := hfacts
  obtain ⟨a', ha', -⟩ := module?_of_reading? ha
  obtain ⟨m, hmodule, haccessors, hfirst⟩ :=
    readsFrom_of_reading? (n := "x") hm (by decide +kernel) ha'
  obtain ⟨a, hsecond, -, hback⟩ :=
    readsFrom_of_reading? (n := "x") ha (by decide +kernel) hmodule
  cases ha'.symm.trans hsecond
  have hcircle : starCircle.Circular "x" m :=
    ⟨m, .refl, .head hfirst.passes (.single hback.passes)⟩
  refine ⟨reached_starPair _, hresolved, hbuild, m, _, hmodule, haccessors, by simp, ?_, ?_⟩
  · rintro ⟨b, hb, hexports⟩
    exact hcircle.not_ends (reflTransGen_passes_of_readsFrom hb) hexports
  · exact .head hfirst (.single hback)

end Graph
end EsModules
