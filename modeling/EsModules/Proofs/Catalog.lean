import EsModules.Catalog
import Mathlib.Tactic.Common

/-!
# Catalogs are closed

Whatever a catalog says about another module, that module is among its sources, so it has a
handle.  The sources themselves are those that the statements name, in the order of their first
mention.  No public name is there twice.
-/

namespace EsModules

open Syntax

/-- The module that a statement names. -/
def Syntax.Item.source? : Item → Option String
  | .imports _ source _ => some source
  | .exportFrom _ source _ => some source
  | .exportAll _ source _ => some source
  | _ => none

/-- A computation in two parts succeeds if both do. -/
theorem bind_eq_ok
    {α β ε : Type}
    {x : Except ε α}
    {f : α → Except ε β}
    {b : β} :
    x >>= f = .ok b ↔ ∃ a, x = .ok a ∧ f a = .ok b := by
  cases x with
  | error e =>
      constructor
      · intro h
        cases h
      · rintro ⟨a, h, -⟩
        cases h
  | ok a =>
      constructor
      · intro h
        exact ⟨a, rfl, h⟩
      · rintro ⟨a', h, hf⟩
        cases h
        exact hf

/-- A computation in two parts fails if one of them does. -/
theorem bind_eq_error
    {α β ε : Type}
    {x : Except ε α}
    {f : α → Except ε β}
    {e : ε} :
    x >>= f = .error e ↔ x = .error e ∨ ∃ a, x = .ok a ∧ f a = .error e := by
  cases x with
  | error e' =>
      constructor
      · intro h
        cases h
        exact .inl rfl
      · rintro (h | ⟨a, h, -⟩)
        · cases h
          rfl
        · cases h
  | ok a =>
      constructor
      · intro h
        exact .inr ⟨a, rfl, h⟩
      · rintro (h | ⟨a', h, hf⟩)
        · cases h
        · cases h
          exact hf

/-- A fold keeps what each of its steps keeps, together with the part of the list that is done. -/
theorem foldlM_run
    {α β ε : Type}
    {f : β → α → Except ε β}
    {P : List α → β → Prop}
    {as : List α}
    (hstep : ∀ done b a b', a ∈ as → P done b → f b a = .ok b' → P (done ++ [a]) b')
    (done : List α)
    {b b' : β}
    (hb : P done b)
    (h : as.foldlM f b = .ok b') :
    P (done ++ as) b' := by
  induction as generalizing done b with
  | nil =>
      cases h
      simpa using hb
  | cons a as ih =>
      rw [List.foldlM_cons, bind_eq_ok] at h
      obtain ⟨next, hfirst, hrest⟩ := h
      have hnext := hstep done b a next List.mem_cons_self hb hfirst
      have htail := ih (fun done b a b' ha => hstep done b a b' (List.mem_cons_of_mem _ ha))
        (done ++ [a]) hnext hrest
      simpa using htail

theorem foldlM_invariant
    {α β ε : Type}
    {f : β → α → Except ε β}
    {P : β → Prop}
    (hstep : ∀ b a b', P b → f b a = .ok b' → P b')
    {as : List α}
    {b b' : β}
    (hb : P b)
    (h : as.foldlM f b = .ok b') :
    P b' :=
  foldlM_run (P := fun _ b => P b) (fun _ b a b' _ => hstep b a b') [] hb h

/-- A fold fails at one of its steps. -/
theorem foldlM_eq_error
    {α β ε : Type}
    {f : β → α → Except ε β}
    {P : β → Prop}
    {as : List α}
    (hstep : ∀ b a b', a ∈ as → P b → f b a = .ok b' → P b')
    {b : β}
    {e : ε}
    (hb : P b)
    (h : as.foldlM f b = .error e) :
    ∃ b' a, a ∈ as ∧ P b' ∧ f b' a = .error e := by
  induction as generalizing b with
  | nil => cases h
  | cons a as ih =>
      cases hfirst : f b a with
      | error e' =>
          rw [List.foldlM_cons, hfirst] at h
          cases h
          exact ⟨b, a, by simp, hb, hfirst⟩
      | ok next =>
          rw [List.foldlM_cons, hfirst] at h
          obtain ⟨b', a', ha', hb', hfail⟩ :=
            ih (fun b a b' ha => hstep b a b' (List.mem_cons_of_mem _ ha))
              (hstep b a next List.mem_cons_self hb hfirst) h
          exact ⟨b', a', List.mem_cons_of_mem _ ha', hb', hfail⟩

/-- Two folds agree if their steps do. -/
theorem foldlM_congr_of
    {α β ε : Type}
    {f f' : β → α → Except ε β}
    {P : β → Prop}
    {as : List α}
    (hstep : ∀ b a b', a ∈ as → P b → f b a = .ok b' → P b')
    (hsame : ∀ b a, a ∈ as → P b → f b a = f' b a)
    {b : β}
    (hb : P b) :
    as.foldlM f b = as.foldlM f' b := by
  induction as generalizing b with
  | nil => rfl
  | cons a as ih =>
      rw [List.foldlM_cons, List.foldlM_cons, ← hsame b a (by simp) hb]
      cases hfirst : f b a with
      | error e => rfl
      | ok next =>
          exact ih (fun b a b' ha => hstep b a b' (List.mem_cons_of_mem _ ha))
            (fun b a ha => hsame b a (List.mem_cons_of_mem _ ha))
            (hstep b a next List.mem_cons_self hb hfirst)

namespace Catalog

/-- Every module that an import, an export or a star names is among the sources. -/
structure Closed (c : Catalog) : Prop where
  imports : ∀ i ∈ c.imports, i.source ∈ c.sources
  exports :
    ∀ e ∈ c.exports, ∀ source kind, e.binding = .reExport source kind → source ∈ c.sources
  stars : ∀ source ∈ c.stars, source ∈ c.sources

theorem closed_empty : empty.Closed :=
  ⟨by simp [empty], by simp [empty], by simp [empty]⟩

/-! ### Single entries -/

@[simp] theorem imports_addSource (c : Catalog) (source : String) :
    (c.addSource source).imports = c.imports := by
  unfold addSource
  split <;> rfl

@[simp] theorem exports_addSource (c : Catalog) (source : String) :
    (c.addSource source).exports = c.exports := by
  unfold addSource
  split <;> rfl

@[simp] theorem stars_addSource (c : Catalog) (source : String) :
    (c.addSource source).stars = c.stars := by
  unfold addSource
  split <;> rfl

theorem mem_sources_addSource (c : Catalog) (source x : String) :
    x ∈ (c.addSource source).sources ↔ x ∈ c.sources ∨ x = source := by
  unfold addSource
  split
  · rename_i hmem
    rw [List.contains_iff_mem] at hmem
    constructor
    · exact Or.inl
    · rintro (hx | rfl)
      · exact hx
      · exact hmem
  · simp

/-- A source that is named again does not change which source is the first of its kind. -/
theorem find?_sources_addSource (c : Catalog) (source : String) (p : String → Bool) :
    (c.addSource source).sources.find? p = (c.sources ++ [source]).find? p := by
  unfold addSource
  split
  · rename_i hmem
    rw [List.contains_iff_mem] at hmem
    rw [List.find?_append]
    cases hfind : c.sources.find? p with
    | some x => rfl
    | none =>
        have hnot : ¬p source = true := List.find?_eq_none.mp hfind source hmem
        simp [hnot]
  · rfl

/-- A source is added once. -/
theorem sources_addSource
    {c : Catalog}
    {named : List String}
    (h : c.sources = named.eraseDups)
    (source : String) :
    (c.addSource source).sources = (named ++ [source]).eraseDups := by
  have hmem : source ∈ c.sources ↔ source ∈ named := by rw [h, List.mem_eraseDups]
  rw [List.eraseDups_append, ← h]
  unfold addSource
  by_cases hnamed : source ∈ named
  · have hfilter : [source].removeAll named = [] := by simp [List.removeAll, hnamed]
    rw [if_pos (by simpa using hmem.mpr hnamed), hfilter, List.eraseDups_nil, List.append_nil]
  · have hfilter : [source].removeAll named = [source] := by simp [List.removeAll, hnamed]
    rw [if_neg (by simpa using fun h => hnamed (hmem.mp h)), hfilter]
    rfl

theorem Closed.addSource {c : Catalog} (h : c.Closed) (source : String) :
    (c.addSource source).Closed := by
  refine ⟨fun i hi => ?_, fun e he s kind hs => ?_, fun s hs => ?_⟩
  · rw [imports_addSource] at hi
    exact (mem_sources_addSource _ _ _).mpr (.inl (h.imports i hi))
  · rw [exports_addSource] at he
    exact (mem_sources_addSource _ _ _).mpr (.inl (h.exports e he s kind hs))
  · rw [stars_addSource] at hs
    exact (mem_sources_addSource _ _ _).mpr (.inl (h.stars s hs))

theorem Closed.addImport
    {c c' : Catalog}
    {source : String}
    {b : ImportBinding}
    (h : c.Closed)
    (hsource : source ∈ c.sources)
    (hadd : addImport source c b = .ok c') :
    c'.Closed ∧ c'.sources = c.sources := by
  unfold Catalog.addImport at hadd
  split at hadd
  · cases hadd
  · cases hadd
    refine ⟨⟨fun i hi => ?_, h.exports, h.stars⟩, rfl⟩
    rcases List.mem_append.mp hi with hi | hi
    · exact h.imports i hi
    · rw [List.mem_singleton.mp hi]
      exact hsource

theorem Closed.addExport
    {c c' : Catalog}
    {entry : ExportEntry}
    (h : c.Closed)
    (hentry : ∀ source kind, entry.binding = .reExport source kind → source ∈ c.sources)
    (hadd : c.addExport entry = .ok c') :
    c'.Closed ∧ c'.sources = c.sources := by
  unfold Catalog.addExport at hadd
  split at hadd
  · cases hadd
  · cases hadd
    refine ⟨⟨h.imports, fun e he s kind hs => ?_, h.stars⟩, rfl⟩
    rcases List.mem_append.mp he with he | he
    · exact h.exports e he s kind hs
    · rw [List.mem_singleton.mp he] at hs
      exact hentry s kind hs

/-- Several public names at once. -/
theorem Closed.addExports
    {α : Type}
    {as : List α}
    {c c' : Catalog}
    (h : c.Closed)
    (entry : α → ExportEntry)
    (hentry :
      ∀ a source kind, (entry a).binding = .reExport source kind → source ∈ c.sources)
    (hadd : as.foldlM (fun c a => c.addExport (entry a)) c = .ok c') :
    c'.Closed ∧ c'.sources = c.sources := by
  refine foldlM_invariant (P := fun d => d.Closed ∧ d.sources = c.sources) ?_ ⟨h, rfl⟩ hadd
  rintro d a d' ⟨hd, hsources⟩ hstep
  obtain ⟨hd', hsources'⟩ := hd.addExport (hsources ▸ hentry a) hstep
  exact ⟨hd', hsources'.trans hsources⟩

/-! ### Statements -/

/-- The sources behind a statement. -/
def sourcesWith (c : Catalog) (item : Item) : List String :=
  match item.source? with
  | some source => (c.addSource source).sources
  | none => c.sources

theorem Closed.addItem
    {text : String}
    {c c' : Catalog}
    {item : Item}
    (h : c.Closed)
    (hadd : addItem text c item = .ok c') :
    c'.Closed ∧ c'.sources = c.sourcesWith item := by
  cases item with
  | imports span source bindings =>
      have hmem : source ∈ (c.addSource source).sources :=
        (mem_sources_addSource _ _ _).mpr (.inr rfl)
      refine foldlM_invariant (P := fun d => d.Closed ∧ d.sources = (c.addSource source).sources)
        ?_ ⟨h.addSource source, rfl⟩ hadd
      rintro d b d' ⟨hd, hsources⟩ hstep
      obtain ⟨hd', hsources'⟩ := hd.addImport (hsources ▸ hmem) hstep
      exact ⟨hd', hsources'.trans hsources⟩
  | exportDeclaration span inner exported code =>
      simp only [Catalog.addItem, bind_eq_ok] at hadd
      obtain ⟨names, -, hadd⟩ := hadd
      exact h.addExports (fun name => ⟨name, .own name⟩) (by simp) hadd
  | exportList span specifiers =>
      exact h.addExports (fun s : ExportSpecifier => ⟨s.exported, .own s.name⟩) (by simp) hadd
  | exportFrom span source specifiers =>
      have hmem : source ∈ (c.addSource source).sources :=
        (mem_sources_addSource _ _ _).mpr (.inr rfl)
      refine (h.addSource source).addExports
        (fun s : ExportSpecifier => ⟨s.exported, .reExport source (.ofName s.name)⟩) ?_ hadd
      intro s source' kind hs
      cases hs
      exact hmem
  | exportDefault span inner value code =>
      simp only [Catalog.addItem, addDefault] at hadd
      split at hadd
      · cases hadd
      · obtain ⟨next, hexport, hdone⟩ := bind_eq_ok.mp hadd
        cases hdone
        obtain ⟨hnext, hsources⟩ := h.addExport (by simp) hexport
        exact ⟨⟨hnext.imports, hnext.exports, hnext.stars⟩, hsources⟩
  | exportAll span source exported =>
      have hmem : source ∈ (c.addSource source).sources :=
        (mem_sources_addSource _ _ _).mpr (.inr rfl)
      cases exported with
      | some name =>
          refine (h.addSource source).addExport ?_ hadd
          intro source' kind hs
          cases hs
          exact hmem
      | none =>
          simp only [Catalog.addItem, Except.ok.injEq] at hadd
          subst hadd
          have hnext := h.addSource source
          split
          · exact ⟨hnext, rfl⟩
          · refine ⟨⟨hnext.imports, hnext.exports, fun s hs => ?_⟩, rfl⟩
            rcases List.mem_append.mp hs with hs | hs
            · exact hnext.stars s hs
            · rw [List.mem_singleton.mp hs]
              exact hmem
  | statement span isText code =>
      cases hadd
      exact ⟨h, rfl⟩

/-! ### Modules -/

/-- The sources that the statements name, in order and as often as they are named. -/
def namedSources (program : Program) : List String :=
  program.items.filterMap Item.source?

/-- The catalog knows the sources that the statements `done` name. -/
structure Covers (c : Catalog) (done : List Item) : Prop where
  closed : c.Closed
  find? : ∀ p, c.sources.find? p = (done.filterMap Item.source?).find? p
  sources : c.sources = (done.filterMap Item.source?).eraseDups

theorem Covers.mem_sources_iff
    {c : Catalog}
    {done : List Item}
    (h : c.Covers done)
    {source : String} :
    source ∈ c.sources ↔ ∃ item ∈ done, item.source? = some source := by
  have hmem : ∀ sources : List String,
      source ∈ sources ↔ (sources.find? (· == source)).isSome = true := by
    simp [List.find?_isSome]
  rw [hmem, h.find?, ← hmem, List.mem_filterMap]

theorem Covers.addItem
    {text : String}
    {c c' : Catalog}
    {done : List Item}
    {item : Item}
    (h : c.Covers done)
    (hadd : Catalog.addItem text c item = .ok c') :
    c'.Covers (done ++ [item]) := by
  obtain ⟨hclosed, hsources⟩ := h.closed.addItem hadd
  rw [sourcesWith] at hsources
  cases hitem : item.source? with
  | none =>
      rw [hitem] at hsources
      refine ⟨hclosed, ?_, ?_⟩
      · simpa [hsources, hitem] using h.find?
      · simpa [hsources, hitem] using h.sources
  | some source =>
      have hsources : c'.sources = (c.addSource source).sources := by rw [hsources, hitem]
      refine ⟨hclosed, fun p => ?_, ?_⟩
      · rw [hsources, find?_sources_addSource, List.filterMap_append, List.find?_append,
          List.find?_append, h.find?]
        simp [hitem]
      · rw [hsources, sources_addSource h.sources, List.filterMap_append]
        simp [hitem]

theorem Covers.addItems
    {text : String}
    {c c' : Catalog}
    {done items : List Item}
    (h : c.Covers done)
    (hadd : items.foldlM (Catalog.addItem text) c = .ok c') :
    c'.Covers (done ++ items) :=
  foldlM_run (P := fun done c => c.Covers done) (fun _ _ _ _ _ h hadd => h.addItem hadd) done h hadd

theorem Closed.linkExports {c : Catalog} (h : c.Closed) :
    { c with exports := c.exports.map (linkExport c.imports) : Catalog }.Closed := by
  refine ⟨h.imports, fun e he source kind hbinding => ?_, h.stars⟩
  obtain ⟨entry, hentry, rfl⟩ := List.mem_map.mp he
  unfold linkExport at hbinding
  split at hbinding
  · split at hbinding
    · rename_i i hfind
      cases hbinding
      exact h.imports i (List.mem_of_find?_eq_some hfind)
    · exact h.exports entry hentry source kind hbinding
  · exact h.exports entry hentry source kind hbinding

/-- The catalog of a module is closed, and knows the sources that its statements name. -/
theorem covers_build
    {text : String}
    {program : Program}
    {catalog : Catalog}
    (h : build text program = .ok catalog) :
    catalog.Covers program.items := by
  obtain ⟨c, hfold, hlink⟩ := bind_eq_ok.mp h
  cases hlink
  have hempty : empty.Covers [] := ⟨closed_empty, fun _ => rfl, rfl⟩
  have hcovers := hempty.addItems hfold
  exact ⟨hcovers.closed.linkExports, hcovers.find?, hcovers.sources⟩

/-- Every source has a handle. -/
theorem handle?_of_mem
    {c : Catalog}
    {source : String}
    (h : source ∈ c.sources) :
    ∃ handle, c.handle? source = some handle := by
  have hsome : (c.sources.findIdx? (· == source)).isSome := by
    rw [List.findIdx?_isSome]
    exact List.any_eq_true.mpr ⟨source, h, by simp⟩
  obtain ⟨index, hindex⟩ := Option.isSome_iff_exists.mp hsome
  exact ⟨handleName index, by rw [handle?, hindex]; rfl⟩

/-! ### Public names -/

theorem nodup_addExport
    {c c' : Catalog}
    {entry : ExportEntry}
    (h : c.exportNames.Nodup)
    (hadd : c.addExport entry = .ok c') :
    c'.exportNames.Nodup := by
  unfold addExport at hadd
  split at hadd
  · cases hadd
  · rename_i hnew
    cases hadd
    have hnot : entry.exported ∉ c.exportNames := by
      intro hmem
      obtain ⟨e, he, hname⟩ := List.mem_map.mp hmem
      exact hnew (List.find?_isSome.mpr ⟨e, he, by simpa using hname⟩)
    simp only [exportNames, List.map_append, List.map_cons, List.map_nil] at h hnot ⊢
    rw [List.nodup_append]
    refine ⟨h, by simp, ?_⟩
    intro n hn n' hn'
    rw [List.mem_singleton.mp hn']
    rintro rfl
    exact hnot hn

theorem exports_addImport
    {c c' : Catalog}
    {source : String}
    {b : ImportBinding}
    (hadd : addImport source c b = .ok c') :
    c'.exports = c.exports := by
  unfold addImport at hadd
  split at hadd
  · cases hadd
  · cases hadd
    rfl

theorem nodup_addItem
    {text : String}
    {c c' : Catalog}
    {item : Item}
    (h : c.exportNames.Nodup)
    (hadd : addItem text c item = .ok c') :
    c'.exportNames.Nodup := by
  have hsource : ∀ source, (c.addSource source).exportNames.Nodup := by
    intro source
    rw [exportNames, exports_addSource]
    exact h
  cases item with
  | imports span source bindings =>
      refine foldlM_invariant (P := fun d => d.exportNames.Nodup) ?_ (hsource source) hadd
      intro d b d' hd hstep
      rw [exportNames, exports_addImport hstep]
      exact hd
  | exportDeclaration span inner exported code =>
      obtain ⟨names, -, hadd⟩ := bind_eq_ok.mp hadd
      exact foldlM_invariant (P := fun d => d.exportNames.Nodup)
        (fun _ _ _ hd hstep => nodup_addExport hd hstep) h hadd
  | exportList span specifiers =>
      exact foldlM_invariant (P := fun d => d.exportNames.Nodup)
        (fun _ _ _ hd hstep => nodup_addExport hd hstep) h hadd
  | exportFrom span source specifiers =>
      exact foldlM_invariant (P := fun d => d.exportNames.Nodup)
        (fun _ _ _ hd hstep => nodup_addExport hd hstep) (hsource source) hadd
  | exportDefault span inner value code =>
      simp only [addItem, addDefault] at hadd
      split at hadd
      · cases hadd
      · obtain ⟨next, hexport, hdone⟩ := bind_eq_ok.mp hadd
        cases hdone
        have hnext : next.exportNames.Nodup := nodup_addExport h hexport
        exact hnext
  | exportAll span source exported =>
      cases exported with
      | some name => exact nodup_addExport (hsource source) hadd
      | none =>
          simp only [addItem, Except.ok.injEq] at hadd
          subst hadd
          split
          · exact hsource source
          · exact hsource source
  | statement span isText code =>
      cases hadd
      exact h

theorem exported_linkExport (imports : List ImportEntry) (entry : ExportEntry) :
    (linkExport imports entry).exported = entry.exported := by
  unfold linkExport
  split
  · split <;> rfl
  · rfl

/-- A module has no public name twice. -/
theorem nodup_exportNames
    {text : String}
    {program : Program}
    {catalog : Catalog}
    (h : build text program = .ok catalog) :
    catalog.exportNames.Nodup := by
  obtain ⟨c, hfold, hlink⟩ := bind_eq_ok.mp h
  cases hlink
  have hnodup : c.exportNames.Nodup :=
    foldlM_invariant (P := fun d => d.exportNames.Nodup)
      (fun _ _ _ hd hstep => nodup_addItem hd hstep) .nil hfold
  simpa only [exportNames, List.map_map, Function.comp_def, exported_linkExport] using hnodup

end Catalog
end EsModules
