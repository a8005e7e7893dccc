import EsModules.Proofs.Catalog
import EsModules.Proofs.Scope.Lexical

/-!
# What a catalog lists

The imports, exports and sources of a catalog are said here of the statements of the module, one
statement at a time: `importEntries`, `exportEntries` and `distinctSources` look at the program
only.  A catalog that is built lists just these, and its handles are numbered as the sources are.
-/

namespace EsModules

open Syntax

/-- The bindings that a statement imports. -/
def Syntax.Item.importEntries : Item → List ImportEntry
  | .imports _ source bindings => bindings.map fun b => ⟨source, b.kind, b.name⟩
  | _ => []

/-- The public names that a statement gives, with what it says that they stand for. -/
def Syntax.Item.exportEntries : Item → List ExportEntry
  | .exportDeclaration span inner exported code =>
      (Item.exportDeclaration span inner exported code).publicNames.map fun n => ⟨n, .own n⟩
  | .exportList _ specifiers => specifiers.map fun s => ⟨s.exported, .own s.name⟩
  | .exportFrom _ source specifiers =>
      specifiers.map fun s => ⟨s.exported, .reExport source (.ofName s.name)⟩
  | .exportDefault _ _ value _ =>
      (Catalog.defaultOf? value).toList.map fun d => ⟨"default", .own d.name⟩
  | .exportAll _ source (some exported) => [⟨exported, .reExport source .whole⟩]
  | _ => []

/-- The statement exports all names of a source. -/
def Syntax.Item.IsStar (source : String) (item : Item) : Prop :=
  ∃ span, item = .exportAll span source none

/-- The bindings that a module imports. -/
def Syntax.Program.importEntries (program : Program) : List ImportEntry :=
  program.items.flatMap Item.importEntries

/-- The public names of a module. -/
def Syntax.Program.exportEntries (program : Program) : List ExportEntry :=
  program.items.flatMap Item.exportEntries

/-- The sources that a module names, in the order of their first mention. -/
def Syntax.Program.distinctSources (program : Program) : List String :=
  (Catalog.namedSources program).eraseDups

theorem nodup_eraseDups {α : Type} [BEq α] [LawfulBEq α] (l : List α) : l.eraseDups.Nodup := by
  induction hlen : l.length using Nat.strongRecOn generalizing l with
  | ind n ih =>
      cases l with
      | nil => exact .nil
      | cons a l =>
          rw [List.eraseDups_cons, List.nodup_cons]
          have hless : (l.filter fun b => !b == a).length < n := by
            have := List.length_filter_le (fun b => !b == a) l
            rw [List.length_cons] at hlen
            omega
          exact ⟨by simp, ih _ hless _ rfl⟩

namespace Catalog

/-! ### Steps -/

theorem addImports_eq
    {source : String}
    {c c' : Catalog}
    {bindings : List ImportBinding}
    (h : bindings.foldlM (addImport source) c = .ok c') :
    c' = { c with imports := c.imports ++ bindings.map fun b => ⟨source, b.kind, b.name⟩ } := by
  refine foldlM_run
    (P := fun done d =>
      d = { c with imports := c.imports ++ done.map fun b => ⟨source, b.kind, b.name⟩ })
    ?_ [] (by simp) h
  rintro done _ b next - rfl hstep
  unfold addImport at hstep
  split at hstep
  · cases hstep
  · cases hstep
    simp

theorem addExport_eq
    {c c' : Catalog}
    {entry : ExportEntry}
    (h : c.addExport entry = .ok c') :
    c' = { c with exports := c.exports ++ [entry] } := by
  unfold addExport at h
  split at h
  · cases h
  · cases h
    rfl

theorem addExports_eq
    {α : Type}
    {entry : α → ExportEntry}
    {c c' : Catalog}
    {l : List α}
    (h : l.foldlM (fun c x => c.addExport (entry x)) c = .ok c') :
    c' = { c with exports := c.exports ++ l.map entry } := by
  refine foldlM_run (P := fun done d => d = { c with exports := c.exports ++ done.map entry })
    ?_ [] (by simp) h
  rintro done _ x next - rfl hstep
  rw [addExport_eq hstep]
  simp

theorem declaredNames_eq
    {exported : Exported}
    {names : List String}
    (h : declaredNames exported = .ok names)
    (span inner : Span)
    (code : List Node) :
    names = (Item.exportDeclaration span inner exported code).publicNames := by
  cases exported with
  | bindings patterns =>
      cases h
      exact flatMap_bindingNames patterns
  | function name =>
      cases name with
      | none => cases h
      | some name =>
          cases h
          rfl
  | classDef name =>
      cases name with
      | none => cases h
      | some name =>
          cases h
          rfl

/-- The catalog lists what the statements `done` import and export. -/
structure Lists (c : Catalog) (done : List Item) : Prop where
  imports : c.imports = done.flatMap Item.importEntries
  exports : c.exports = done.flatMap Item.exportEntries
  stars : ∀ source, source ∈ c.stars ↔ ∃ item ∈ done, item.IsStar source

theorem lists_empty : empty.Lists [] :=
  ⟨rfl, rfl, by simp [empty]⟩

/-- A statement that exports no whole source adds its own entries and nothing else. -/
theorem Lists.add
    {c c' : Catalog}
    {done : List Item}
    {item : Item}
    (h : c.Lists done)
    (himports : c'.imports = c.imports ++ item.importEntries)
    (hexports : c'.exports = c.exports ++ item.exportEntries)
    (hstars : ∀ source, source ∈ c'.stars ↔ source ∈ c.stars ∨ item.IsStar source) :
    c'.Lists (done ++ [item]) where
  imports := by simp [himports, h.imports]
  exports := by simp [hexports, h.exports]
  stars := by
    intro source
    rw [hstars, h.stars]
    simp only [List.mem_append, List.mem_singleton, or_and_right, exists_or, exists_eq_left]

theorem Lists.addItem
    {text : String}
    {c c' : Catalog}
    {done : List Item}
    {item : Item}
    (h : c.Lists done)
    (hadd : Catalog.addItem text c item = .ok c') :
    c'.Lists (done ++ [item]) := by
  cases item with
  | imports span source bindings =>
      rw [addImports_eq hadd]
      exact h.add (by simp [Item.importEntries]) (by simp [Item.exportEntries])
        (by simp [Item.IsStar])
  | exportDeclaration span inner exported code =>
      obtain ⟨names, hnames, hadd⟩ := bind_eq_ok.mp hadd
      rw [addExports_eq hadd, declaredNames_eq hnames span inner code]
      exact h.add (by simp [Item.importEntries]) (by simp [Item.exportEntries])
        (by simp [Item.IsStar])
  | exportList span specifiers =>
      rw [addExports_eq hadd]
      exact h.add (by simp [Item.importEntries]) (by simp [Item.exportEntries])
        (by simp [Item.IsStar])
  | exportFrom span source specifiers =>
      rw [addExports_eq hadd]
      exact h.add (by simp [Item.importEntries]) (by simp [Item.exportEntries])
        (by simp [Item.IsStar])
  | exportDefault span inner value code =>
      simp only [Catalog.addItem, addDefault] at hadd
      split at hadd
      · cases hadd
      · rename_i d hdefault
        obtain ⟨next, hexport, hdone⟩ := bind_eq_ok.mp hadd
        cases hdone
        rw [addExport_eq hexport]
        exact h.add (by simp [Item.importEntries]) (by simp [Item.exportEntries, hdefault])
          (by simp [Item.IsStar])
  | exportAll span source exported =>
      cases exported with
      | some name =>
          rw [addExport_eq hadd]
          exact h.add (by simp [Item.importEntries]) (by simp [Item.exportEntries])
            (by simp [Item.IsStar])
      | none =>
          simp only [Catalog.addItem, Except.ok.injEq] at hadd
          subst hadd
          split
          · rename_i hknown
            refine h.add (by simp [Item.importEntries]) (by simp [Item.exportEntries]) ?_
            have hmem : source ∈ c.stars := by simpa using hknown
            intro other
            simp only [stars_addSource, Item.IsStar]
            grind
          · refine h.add (by simp [Item.importEntries]) (by simp [Item.exportEntries]) ?_
            intro other
            simp [Item.IsStar, eq_comm]
  | statement span isText code =>
      cases hadd
      exact h.add (by simp [Item.importEntries]) (by simp [Item.exportEntries])
        (by simp [Item.IsStar])

/-! ### Modules -/

/-- The catalog of a module lists its imports, and its exports with the imported names linked. -/
theorem lists_build
    {text : String}
    {program : Program}
    {catalog : Catalog}
    (h : build text program = .ok catalog) :
    catalog.imports = program.importEntries ∧
      catalog.exports = program.exportEntries.map (linkExport program.importEntries) ∧
      ∀ source, source ∈ catalog.stars ↔ ∃ item ∈ program.items, item.IsStar source := by
  obtain ⟨c, hfold, hlink⟩ := bind_eq_ok.mp h
  cases hlink
  have hlists : c.Lists ([] ++ program.items) :=
    foldlM_run (P := fun done c => c.Lists done) (fun _ _ _ _ _ h hadd => h.addItem hadd) []
      lists_empty hfold
  refine ⟨hlists.imports, ?_, hlists.stars⟩
  show c.exports.map (linkExport c.imports) = _
  rw [hlists.imports, hlists.exports]
  rfl

theorem sources_build
    {text : String}
    {program : Program}
    {catalog : Catalog}
    (h : build text program = .ok catalog) :
    catalog.sources = program.distinctSources :=
  (covers_build h).sources

theorem handleName_injective
    {i j : Nat}
    (h : handleName i = handleName j) :
    i = j := by
  have hrepr : Nat.repr i = Nat.repr j := by
    have hfront : "__imports_" ++ Nat.repr i ++ "__" = "__imports_" ++ Nat.repr j ++ "__" := h
    exact (String.append_right_inj _).mp ((String.append_left_inj _).mp hfront)
  have hdigits : Nat.toDigits 10 i = Nat.toDigits 10 j := by
    rw [← Nat.toList_repr, ← Nat.toList_repr, hrepr]
  rw [← Nat.ofDigitChars_ten_toDigits (n := i), hdigits, Nat.ofDigitChars_ten_toDigits]

/-- A handle has the number of its source. -/
theorem getElem?_of_handle?
    {c : Catalog}
    {source handle : String}
    (h : c.handle? source = some handle) :
    ∃ i : Nat, c.sources[i]? = some source ∧ handle = handleName i := by
  obtain ⟨i, hi, rfl⟩ := Option.map_eq_some_iff.mp h
  obtain ⟨hlt, hsource, -⟩ := List.findIdx?_eq_some_iff_getElem.mp hi
  exact ⟨i, List.getElem?_eq_some_iff.mpr ⟨hlt, by simpa using hsource⟩, rfl⟩

/-- The first handles in the order of their numbers. -/
def handleNames (count : Nat) : List String :=
  (List.range count).map handleName

theorem nodup_handleNames (count : Nat) : (handleNames count).Nodup :=
  List.Pairwise.map handleName (fun _ _ hne h => hne (handleName_injective h)) List.nodup_range

theorem map_handles (c : Catalog) : c.handles.map (·.2) = handleNames c.sources.length := by
  rw [handles, handleNames, List.map_map, List.range_eq_range', ← List.zipIdx_map_snd, List.map_map]
  rfl

end Catalog
end EsModules
