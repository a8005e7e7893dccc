import EsModules.Proofs.Catalog.Unambiguous
import EsModules.Proofs.Transpile.Assembly

/-!
# Exports of imports

A module may export a name that it imports.  Such an export is served from the module that the name
comes from, wherever the import stands, and its getter reads it with the same expression as the code
of the module (`exported_imports_linked`).  The two come about separately: the catalog links exports
to imports when all statements are read, and the references in the code are looked up by name.
-/

namespace EsModules

open Syntax Transpile

/-- No name is imported or exported twice, and an export written with a name of this module stands
for the import of this name if there is one. -/
structure Catalog.LinksImports (catalog : Catalog) (program : Program) : Prop where
  imports : catalog.importNames.Nodup
  exports : catalog.exportNames.Nodup
  imported :
    ∀ exported name i, ⟨exported, .own name⟩ ∈ program.exportEntries →
      i ∈ program.importEntries → i.name = name →
        catalog.exportOf? exported = some ⟨exported, .reExport i.source i.kind⟩
  own :
    ∀ exported name, ⟨exported, .own name⟩ ∈ program.exportEntries →
      (∀ i ∈ program.importEntries, i.name ≠ name) →
        catalog.exportOf? exported = some ⟨exported, .own name⟩
  unimported :
    ∀ e ∈ catalog.exports, ∀ name, e.binding = .own name → ∀ i ∈ catalog.imports, i.name ≠ name

/-- The getter of an exported import is the expression that the identifiers which read the import
are replaced by. -/
def ReadsAlike (program : Program) (view : ModuleView) : Prop :=
  ∃ accessors edits,
    view.exportAccessors = .ok accessors ∧
    referenceEdits (ScopeTable.build program) view (ScopeTable.build program).references =
      .ok edits ∧
    ∀ exported name i, ⟨exported, .own name⟩ ∈ program.exportEntries →
      i ∈ program.importEntries → i.name = name →
        ∃ getter, accessors.find? (·.1 == exported) = some (exported, getter) ∧
          ∀ o ∈ program.occurrences, o.name = name → o.shorthand = false →
            o.refersToModule program.scopeNames → Edit.rename o.span getter ∈ edits

section

variable {text : String} {program : Program} {catalog : Catalog}

/-! ### Bindings -/

theorem linkExport_of_mem
    {imports : List ImportEntry}
    {i : ImportEntry}
    (h : (imports.map (·.name)).Nodup)
    (hi : i ∈ imports)
    (exported : String) :
    Catalog.linkExport imports ⟨exported, .own i.name⟩ =
      ⟨exported, .reExport i.source i.kind⟩ := by
  have hfind : imports.find? (·.name == i.name) = some i := (find?_key_iff h).mpr ⟨hi, rfl⟩
  simp only [Catalog.linkExport, hfind]

theorem linkExport_of_notMem
    {imports : List ImportEntry}
    {name : String}
    (h : ∀ i ∈ imports, i.name ≠ name)
    (exported : String) :
    Catalog.linkExport imports ⟨exported, .own name⟩ = ⟨exported, .own name⟩ := by
  have hnone : imports.find? (·.name == name) = none :=
    List.find?_eq_none.mpr fun i hi => by simpa using h i hi
  simp only [Catalog.linkExport, hnone]

/-- What is left as a name of this module is not imported. -/
theorem notMem_of_linkExport
    {imports : List ImportEntry}
    {entry : ExportEntry}
    {name : String}
    (h : (Catalog.linkExport imports entry).binding = .own name) :
    ∀ i ∈ imports, i.name ≠ name := by
  unfold Catalog.linkExport at h
  split at h
  · rename_i own hown
    split at h
    · cases h
    · rename_i hnone
      obtain rfl : own = name := ExportBinding.own.inj (hown.symm.trans h)
      exact fun i hi => by simpa using List.find?_eq_none.mp hnone i hi
  · rename_i hre
    rw [hre] at h
    cases h

theorem exportOf?_of_mem
    {entry : ExportEntry}
    (h : Catalog.build text program = .ok catalog)
    (hentry : entry ∈ program.exportEntries) :
    catalog.exportOf? entry.exported = some (Catalog.linkExport program.importEntries entry) := by
  refine (find?_key_iff (Catalog.nodup_exportNames h)).mpr ⟨?_, Catalog.exported_linkExport _ _⟩
  rw [(Catalog.lists_build h).2.1]
  exact List.mem_map_of_mem hentry

theorem linksImports_of_build (h : Catalog.build text program = .ok catalog) :
    catalog.LinksImports program := by
  obtain ⟨himports, hexports, -⟩ := Catalog.lists_build h
  have hnames : (program.importEntries.map (·.name)).Nodup :=
    (Catalog.unambiguous_of_build h).imports
  refine
    { imports := by rwa [Catalog.importNames, himports]
      exports := Catalog.nodup_exportNames h
      imported := ?_
      own := ?_
      unimported := ?_ }
  · rintro exported _ i hentry hi rfl
    rw [← linkExport_of_mem hnames hi]
    exact exportOf?_of_mem h hentry
  · intro exported name hentry hnone
    rw [← linkExport_of_notMem hnone]
    exact exportOf?_of_mem h hentry
  · intro e he name hown
    rw [himports]
    rw [hexports] at he
    obtain ⟨entry, -, rfl⟩ := List.mem_map.mp he
    exact notMem_of_linkExport hown

/-! ### Accesses -/

theorem map_fst_exportAccessors
    {view : ModuleView}
    {accessors : List (String × String)}
    (h : view.exportAccessors = .ok accessors) :
    accessors.map (·.1) = view.catalog.exportNames := by
  have hall := forall₂_of_mapM h
  rw [Catalog.exportNames, ← List.forall₂_eq_eq_eq, List.forall₂_map_left_iff,
    List.forall₂_map_right_iff]
  refine hall.flip.imp fun accessor e haccessor => ?_
  obtain ⟨value, -, hpair⟩ := bind_eq_ok.mp haccessor
  cases hpair
  rfl

/-- The getter of a name that another module serves accesses the handle of that module. -/
theorem accessor_of_reExport
    {view : ModuleView}
    {accessors : List (String × String)}
    {exported source handle : String}
    {kind : ImportKind}
    (h : view.exportAccessors = .ok accessors)
    (hnodup : view.catalog.exportNames.Nodup)
    (hentry : view.catalog.exportOf? exported = some ⟨exported, .reExport source kind⟩)
    (hhandle : view.requireHandle source = .ok handle) :
    accessors.find? (·.1 == exported) =
      some (exported, accessExpression handle kind view.format) := by
  refine (find?_key_iff ((map_fst_exportAccessors h).symm ▸ hnodup)).mpr ⟨?_, rfl⟩
  obtain ⟨n, hn⟩ := List.getElem?_of_mem (List.mem_of_find?_eq_some hentry)
  obtain ⟨accessor, haccessor, hvalue⟩ := getElem?_of_forall₂ (forall₂_of_mapM h) hn
  obtain ⟨value, haccess, hpair⟩ := bind_eq_ok.mp hvalue
  obtain ⟨handle', hhandle', haccess⟩ := bind_eq_ok.mp haccess
  obtain rfl : handle' = handle := Except.ok.inj (hhandle'.symm.trans hhandle)
  cases haccess
  cases hpair
  exact List.mem_of_getElem? haccessor

theorem readsAlike_of_build
    {view : ModuleView}
    (h : Catalog.build text program = .ok view.catalog) :
    ReadsAlike program view := by
  have hclosed := (Catalog.covers_build h).closed
  have hlinks := linksImports_of_build h
  obtain ⟨accessors, haccessors⟩ := exportAccessors_eq_ok hclosed
  refine ⟨accessors, _, haccessors,
    referenceEdits_eq hclosed (ScopeTable.build_references program), ?_⟩
  rintro exported _ i hentry hi rfl
  have hexport := hlinks.imported exported i.name i hentry hi rfl
  rw [← (Catalog.lists_build h).1] at hi
  obtain ⟨handle, hhandle, hrequire⟩ := requireHandle_of_mem (hclosed.imports i hi)
  refine ⟨_, accessor_of_reExport haccessors hlinks.exports hexport hrequire, ?_⟩
  intro o ho hname hplain hrefers
  have himport : view.catalog.importOf? o.name = some i :=
    (find?_key_iff hlinks.imports).mpr ⟨hi, hname.symm⟩
  refine List.mem_filterMap.mpr ⟨o, ho, ?_⟩
  simp [renaming?, renamed, hrefers, himport, hhandle, hplain]

end

/-- An export of an imported name is served from the module that the name comes from, wherever it is
imported, and read there as the code of the module reads it. -/
theorem exported_imports_linked
    {text : String}
    {program : Program}
    {catalog : Catalog}
    (h : Catalog.build text program = .ok catalog) :
    catalog.LinksImports program ∧
      (∀ text' program', Rearranged program program' →
        ∃ catalog', Catalog.build text' program' = .ok catalog' ∧
          ∀ exported, catalog'.exportOf? exported = catalog.exportOf? exported) ∧
      ∀ view : ModuleView, view.catalog = catalog → ReadsAlike program view := by
  refine ⟨linksImports_of_build h, ?_, ?_⟩
  · intro text' program' hsame
    exact Catalog.exportOf?_of_rearranged h hsame text'
  · rintro view rfl
    exact readsAlike_of_build h

/-- A module that exports two imports before it imports them. -/
def importsLast : String :=
  "export \x7b x as y, d as default, own \x7d;\nvar own = x;\n" ++
    "function f(x) \x7b d(x); \x7d\nimport d, \x7b x \x7d from 'm';\n"

/-- The imports are linked also if all statements are turned around, and the getter of `y` is what
the first `x` of the code is replaced by. -/
theorem exported_imports_linked_importsLast :
    ∃ program catalog catalog', Program.parse importsLast = .ok program ∧
      Catalog.build importsLast program = .ok catalog ∧
      Catalog.build importsLast { program with items := program.items.reverse } = .ok catalog' ∧
      (∀ c ∈ [catalog, catalog'],
        c.exportOf? "y" = some ⟨"y", .reExport "m" (.named "x")⟩ ∧
        c.exportOf? "default" = some ⟨"default", .reExport "m" .default⟩ ∧
        c.exportOf? "own" = some ⟨"own", .own "own"⟩) ∧
      ∃ accessors edits getter,
        ModuleView.exportAccessors ⟨"n", {}, catalog, []⟩ = .ok accessors ∧
        referenceEdits (ScopeTable.build program) ⟨"n", {}, catalog, []⟩
          (ScopeTable.build program).references = .ok edits ∧
        accessors.find? (·.1 == "y") = some ("y", getter) ∧
        Edit.rename ⟨48, 49⟩ getter ∈ edits := by
  have hread : ((Program.parse importsLast).toOption.map fun p =>
      ((p.exportEntries, p.importEntries), (p.occurrences.take 1, p.scopeNames),
        (Catalog.build importsLast p).toOption.map fun _ => ())) =
      some (([⟨"y", .own "x"⟩, ⟨"default", .own "d"⟩, ⟨"own", .own "own"⟩],
        [⟨"m", .default, "d"⟩, ⟨"m", .named "x", "x"⟩]),
        ([⟨"x", ⟨48, 49⟩, false, []⟩], ["f", "own", "d", "x"]), some ()) := by
    decide +kernel
  obtain ⟨program, hparse, hfacts⟩ := ok_of_toOption_map hread
  simp only [Prod.mk.injEq] at hfacts
  obtain ⟨⟨hexports, himports⟩, ⟨hfirst, hnames⟩, hbuild⟩ := hfacts
  obtain ⟨catalog, hcatalog, -⟩ := ok_of_toOption_map hbuild
  obtain ⟨hlinks, hmoved, hreads⟩ := exported_imports_linked hcatalog
  obtain ⟨catalog', hcatalog', hsame⟩ := hmoved importsLast
    { program with items := program.items.reverse } ((List.reverse_perm _).symm.map _)
  have hy := hlinks.imported "y" "x" ⟨"m", .named "x", "x"⟩ (by simp [hexports])
    (by simp [himports]) rfl
  have hdefault := hlinks.imported "default" "d" ⟨"m", .default, "d"⟩ (by simp [hexports])
    (by simp [himports]) rfl
  have hown := hlinks.own "own" "own" (by simp [hexports]) (by simp [himports])
  obtain ⟨accessors, edits, haccessors, hedits, hall⟩ := hreads ⟨"n", {}, catalog, []⟩ rfl
  obtain ⟨getter, hgetter, hcode⟩ := hall "y" "x" ⟨"m", .named "x", "x"⟩ (by simp [hexports])
    (by simp [himports]) rfl
  refine ⟨program, catalog, catalog', hparse, hcatalog, hcatalog', ?_, accessors, edits, getter,
    haccessors, hedits, hgetter, ?_⟩
  · rw [List.forall_mem_cons, List.forall_mem_singleton, hsame, hsame, hsame]
    exact ⟨⟨hy, hdefault, hown⟩, hy, hdefault, hown⟩
  · have hmem : ⟨"x", ⟨48, 49⟩, false, []⟩ ∈ program.occurrences :=
      List.mem_of_mem_take (hfirst ▸ List.mem_singleton_self _)
    refine hcode _ hmem rfl rfl ?_
    rw [hnames]
    decide

end EsModules
