import EsModules.Proofs.Catalog.Entries
import Mathlib.Data.List.Nodup

/-!
# When a module has a catalog

The statements of a module are added to its catalog one by one, and one of them is refused if it
imports or exports a name again, or exports something without a name.  `Unambiguous` says of all
statements together that this does not happen, so a catalog can be built for a module if and only
if its statements are unambiguous (`build_eq_ok_iff`).  Neither this nor what a public name stands
for depends on the order of the statements or on where they stand in the text
(`exportOf?_of_rearranged`).
-/

namespace EsModules

open Syntax

/-- A fold succeeds on the lists that are good, if each step from a good list does. -/
theorem foldlM_ok_iff
    {α β ε : Type}
    {f : β → α → Except ε β}
    {P : List α → β → Prop}
    {G : List α → Prop}
    (hkeep : ∀ done b a b', P done b → f b a = .ok b' → P (done ++ [a]) b')
    (hstep : ∀ done b a, P done b → G done → ((∃ b', f b a = .ok b') ↔ G (done ++ [a])))
    (hfront : ∀ done more, G (done ++ more) → G done)
    (as done : List α)
    {b : β}
    (hb : P done b)
    (hgood : G done) :
    (∃ b', as.foldlM f b = .ok b') ↔ G (done ++ as) := by
  induction as generalizing done b with
  | nil => simpa [pure, Except.pure] using hgood
  | cons a as ih =>
      have happend : done ++ a :: as = done ++ [a] ++ as := by simp
      rw [happend, List.foldlM_cons]
      constructor
      · rintro ⟨b', h⟩
        obtain ⟨next, hnext, hrest⟩ := bind_eq_ok.mp h
        exact (ih _ (hkeep _ _ _ _ hb hnext) ((hstep _ _ _ hb hgood).mp ⟨next, hnext⟩)).mp
          ⟨b', hrest⟩
      · intro h
        have hnext := hfront _ _ h
        obtain ⟨next, hfirst⟩ := (hstep _ _ _ hb hgood).mpr hnext
        obtain ⟨b', hrest⟩ := (ih _ (hkeep _ _ _ _ hb hfirst) hnext).mpr h
        exact ⟨b', bind_eq_ok.mpr ⟨next, hfirst, hrest⟩⟩

theorem nodup_snoc_iff
    {α : Type}
    {l : List α}
    {a : α}
    (h : l.Nodup) :
    (l ++ [a]).Nodup ↔ a ∉ l := by
  rw [List.nodup_append_comm, List.singleton_append, List.nodup_cons]
  exact and_iff_left h

/-- A fold that adds keys and refuses only keys that are there already succeeds if and only if no
key is repeated. -/
theorem foldlM_ok_iff_nodup
    {α β ε κ : Type}
    {f : β → α → Except ε β}
    {keys : β → List κ}
    {key : α → κ}
    (hadd : ∀ b a b', f b a = .ok b' → keys b' = keys b ++ [key a])
    (hnew : ∀ b a, (∃ b', f b a = .ok b') ↔ key a ∉ keys b)
    (as : List α)
    {b : β}
    (hb : (keys b).Nodup) :
    (∃ b', as.foldlM f b = .ok b') ↔ (keys b ++ as.map key).Nodup := by
  refine foldlM_ok_iff
    (P := fun done d => keys d = keys b ++ done.map key)
    (G := fun done => (keys b ++ done.map key).Nodup)
    ?_ ?_ ?_ as [] (by simp) (by simpa using hb)
  · intro done d a d' hd hstep
    rw [hadd d a d' hstep, hd]
    simp
  · intro done d a hd hgood
    have hlast : keys b ++ (done ++ [a]).map key = keys d ++ [key a] := by simp [hd]
    rw [hlast, nodup_snoc_iff (hd ▸ hgood), hnew]
  · intro done more hgood
    rw [List.map_append, ← List.append_assoc] at hgood
    exact hgood.of_append_left

/-- What the statement exports has a name. -/
def Syntax.Item.Nameable : Item → Prop
  | .exportDeclaration _ _ exported _ => ∃ names, Catalog.declaredNames exported = .ok names
  | .exportDefault _ _ value _ => ∃ d, Catalog.defaultOf? value = some d
  | _ => True

/-- No name is imported twice or exported twice, and every export has a name. -/
structure Unambiguous (items : List Item) : Prop where
  nameable : ∀ item ∈ items, item.Nameable
  imports : ((items.flatMap Item.importEntries).map (·.name)).Nodup
  exports : ((items.flatMap Item.exportEntries).map (·.exported)).Nodup

theorem unambiguous_nil : Unambiguous [] :=
  ⟨by simp, by simp, by simp⟩

theorem Unambiguous.of_append
    {items more : List Item}
    (h : Unambiguous (items ++ more)) :
    Unambiguous items where
  nameable := fun item hitem => h.nameable item (List.mem_append_left _ hitem)
  imports := by
    have himports := h.imports
    rw [List.flatMap_append, List.map_append] at himports
    exact himports.of_append_left
  exports := by
    have hexports := h.exports
    rw [List.flatMap_append, List.map_append] at hexports
    exact hexports.of_append_left

namespace Catalog

/-! ### Single entries -/

/-- The names that a module imports. -/
def importNames (c : Catalog) : List String :=
  c.imports.map (·.name)

theorem addExport_ok_iff (c : Catalog) (entry : ExportEntry) :
    (∃ c', c.addExport entry = .ok c') ↔ entry.exported ∉ c.exportNames := by
  have hknown : (c.exportOf? entry.exported).isSome = true ↔ entry.exported ∈ c.exportNames := by
    rw [exportOf?, List.find?_isSome, exportNames, List.mem_map]
    simp
  rw [← hknown, addExport]
  split <;> simp_all

theorem addImport_ok_iff (source : String) (c : Catalog) (b : ImportBinding) :
    (∃ c', addImport source c b = .ok c') ↔ b.name ∉ c.importNames := by
  have hknown : (c.importOf? b.name).isSome = true ↔ b.name ∈ c.importNames := by
    rw [importOf?, List.find?_isSome, importNames, List.mem_map]
    simp
  rw [← hknown, addImport]
  split <;> simp_all

theorem addExports_ok_iff
    {α : Type}
    {c : Catalog}
    (h : c.exportNames.Nodup)
    (entry : α → ExportEntry)
    (l : List α) :
    (∃ c', l.foldlM (fun c x => c.addExport (entry x)) c = .ok c') ↔
      (c.exportNames ++ l.map fun x => (entry x).exported).Nodup := by
  refine foldlM_ok_iff_nodup ?_ (fun d x => d.addExport_ok_iff (entry x)) l h
  intro d x d' hadd
  rw [addExport_eq hadd]
  simp [exportNames]

theorem addImports_ok_iff
    {c : Catalog}
    (h : c.importNames.Nodup)
    (source : String)
    (bindings : List ImportBinding) :
    (∃ c', bindings.foldlM (addImport source) c = .ok c') ↔
      (c.importNames ++ bindings.map (·.name)).Nodup := by
  refine foldlM_ok_iff_nodup ?_ (addImport_ok_iff source) bindings h
  intro d b d' hadd
  unfold addImport at hadd
  split at hadd
  · cases hadd
  · cases hadd
    simp [importNames]

/-! ### Statements -/

theorem Lists.unambiguous_snoc_iff
    {c : Catalog}
    {done : List Item}
    (h : c.Lists done)
    (hdone : Unambiguous done)
    (item : Item) :
    Unambiguous (done ++ [item]) ↔
      item.Nameable ∧ (c.importNames ++ item.importEntries.map (·.name)).Nodup ∧
        (c.exportNames ++ item.exportEntries.map (·.exported)).Nodup := by
  rw [importNames, exportNames, h.imports, h.exports]
  constructor
  · intro hall
    refine ⟨hall.nameable item (by simp), ?_, ?_⟩
    · simpa using hall.imports
    · simpa using hall.exports
  · rintro ⟨hitem, himports, hexports⟩
    refine ⟨?_, by simpa using himports, by simpa using hexports⟩
    intro other hother
    rcases List.mem_append.mp hother with hother | hother
    · exact hdone.nameable other hother
    · exact List.mem_singleton.mp hother ▸ hitem

/-- A statement can be added unless it makes the module ambiguous. -/
theorem Lists.addItem_ok_iff
    {c : Catalog}
    {done : List Item}
    (h : c.Lists done)
    (hdone : Unambiguous done)
    (text : String)
    (item : Item) :
    (∃ c', Catalog.addItem text c item = .ok c') ↔ Unambiguous (done ++ [item]) := by
  have himports : c.importNames.Nodup := by
    rw [importNames, h.imports]
    exact hdone.imports
  have hexports : c.exportNames.Nodup := by
    rw [exportNames, h.exports]
    exact hdone.exports
  have hsource : ∀ source, (c.addSource source).importNames = c.importNames ∧
      (c.addSource source).exportNames = c.exportNames := by
    intro source
    exact ⟨by rw [importNames, imports_addSource, importNames],
      by rw [exportNames, exports_addSource, exportNames]⟩
  rw [h.unambiguous_snoc_iff hdone]
  cases item with
  | imports span source bindings =>
      obtain ⟨hnames, -⟩ := hsource source
      have hadd := addImports_ok_iff (hnames.symm ▸ himports) source bindings
      rw [hnames] at hadd
      simpa [Catalog.addItem, Item.Nameable, Item.importEntries, Item.exportEntries, hexports,
        Function.comp_def] using hadd
  | exportDeclaration span inner exported code =>
      cases hnames : declaredNames exported with
      | error e => simp [Catalog.addItem, Item.Nameable, hnames, bind, Except.bind]
      | ok names =>
          have hadd := addExports_ok_iff hexports (fun name => ⟨name, .own name⟩) names
          simpa [Catalog.addItem, Item.Nameable, Item.importEntries, Item.exportEntries, himports,
            hnames, declaredNames_eq hnames span inner code, Function.comp_def, bind,
            Except.bind] using hadd
  | exportList span specifiers =>
      have hadd := addExports_ok_iff hexports
        (fun s : ExportSpecifier => ⟨s.exported, .own s.name⟩) specifiers
      simpa [Catalog.addItem, Item.Nameable, Item.importEntries, Item.exportEntries, himports,
        Function.comp_def] using hadd
  | exportFrom span source specifiers =>
      obtain ⟨-, hnames⟩ := hsource source
      have hadd := addExports_ok_iff (hnames.symm ▸ hexports)
        (fun s : ExportSpecifier => ⟨s.exported, .reExport source (.ofName s.name)⟩) specifiers
      rw [hnames] at hadd
      simpa [Catalog.addItem, Item.Nameable, Item.importEntries, Item.exportEntries, himports,
        Function.comp_def] using hadd
  | exportDefault span inner value code =>
      cases hdefault : defaultOf? value with
      | none => simp [Catalog.addItem, addDefault, Item.Nameable, hdefault]
      | some d =>
          have hadd := c.addExport_ok_iff ⟨"default", .own d.name⟩
          rw [← nodup_snoc_iff hexports] at hadd
          have hitem :
              (∃ c', Catalog.addItem text c (.exportDefault span inner value code) = .ok c') ↔
              ∃ c', c.addExport ⟨"default", .own d.name⟩ = .ok c' := by
            simp only [Catalog.addItem, addDefault, hdefault, bind_eq_ok]
            simp [pure, Except.pure]
          simpa [hitem, Item.Nameable, Item.importEntries, Item.exportEntries, himports, hdefault]
            using hadd
  | exportAll span source exported =>
      cases exported with
      | none =>
          simp [Catalog.addItem, Item.Nameable, Item.importEntries, Item.exportEntries, himports,
            hexports]
      | some name =>
          obtain ⟨-, hnames⟩ := hsource source
          have hadd := (c.addSource source).addExport_ok_iff ⟨name, .reExport source .whole⟩
          rw [hnames, ← nodup_snoc_iff hexports] at hadd
          simpa [Catalog.addItem, Item.Nameable, Item.importEntries, Item.exportEntries, himports]
            using hadd
  | statement span isText code =>
      simp [Catalog.addItem, Item.Nameable, Item.importEntries, Item.exportEntries, himports,
        hexports]

/-! ### Modules -/

/-- A catalog can be built for the modules whose statements are unambiguous. -/
theorem build_eq_ok_iff (text : String) (program : Program) :
    (∃ catalog, build text program = .ok catalog) ↔ Unambiguous program.items := by
  have hfold : (∃ c, program.items.foldlM (addItem text) empty = .ok c) ↔
      Unambiguous ([] ++ program.items) :=
    foldlM_ok_iff (P := fun done c => c.Lists done) (fun _ _ _ _ h hadd => h.addItem hadd)
      (fun _ _ item h hdone => h.addItem_ok_iff hdone text item) (fun _ _ h => h.of_append)
      program.items [] lists_empty unambiguous_nil
  rw [List.nil_append] at hfold
  rw [← hfold]
  constructor
  · rintro ⟨catalog, h⟩
    obtain ⟨c, hc, -⟩ := bind_eq_ok.mp h
    exact ⟨c, hc⟩
  · rintro ⟨c, hc⟩
    exact ⟨_, bind_eq_ok.mpr ⟨c, hc, rfl⟩⟩

end Catalog

/-! ### Rearranged statements -/

/-- The statement without its place in the text and the code in it. -/
def Syntax.Item.unplaced : Item → Item
  | .imports _ source bindings => .imports ⟨0, 0⟩ source bindings
  | .exportDeclaration _ _ exported _ => .exportDeclaration ⟨0, 0⟩ ⟨0, 0⟩ exported []
  | .exportList _ specifiers => .exportList ⟨0, 0⟩ specifiers
  | .exportFrom _ source specifiers => .exportFrom ⟨0, 0⟩ source specifiers
  | .exportDefault _ _ value _ => .exportDefault ⟨0, 0⟩ ⟨0, 0⟩ value []
  | .exportAll _ source exported => .exportAll ⟨0, 0⟩ source exported
  | .statement _ isText _ => .statement ⟨0, 0⟩ isText []

/-- The modules have the same imports and exports, in any order and at any places. -/
def Rearranged (program program' : Program) : Prop :=
  (program.items.map Item.unplaced).Perm (program'.items.map Item.unplaced)

@[simp] theorem importEntries_unplaced (item : Item) :
    item.unplaced.importEntries = item.importEntries := by
  cases item <;> rfl

@[simp] theorem exportEntries_unplaced (item : Item) :
    item.unplaced.exportEntries = item.exportEntries := by
  cases item with
  | exportDeclaration span inner exported code => cases exported <;> rfl
  | exportAll span source exported => cases exported <;> rfl
  | _ => rfl

@[simp] theorem nameable_unplaced (item : Item) : item.unplaced.Nameable ↔ item.Nameable := by
  cases item <;> rfl

namespace Rearranged

variable {program program' : Program}

theorem importEntries (h : Rearranged program program') :
    program.importEntries.Perm program'.importEntries := by
  simpa [Program.importEntries, List.flatMap_map] using h.flatMap_right Item.importEntries

theorem exportEntries (h : Rearranged program program') :
    program.exportEntries.Perm program'.exportEntries := by
  simpa [Program.exportEntries, List.flatMap_map] using h.flatMap_right Item.exportEntries

theorem unambiguous
    (h : Rearranged program program')
    (hitems : Unambiguous program.items) :
    Unambiguous program'.items where
  nameable := by
    intro item' hitem'
    obtain ⟨item, hitem, hsame⟩ := List.mem_map.mp (h.mem_iff.mpr (List.mem_map_of_mem hitem'))
    rw [← nameable_unplaced, ← hsame, nameable_unplaced]
    exact hitems.nameable item hitem
  imports := (h.importEntries.map _).nodup hitems.imports
  exports := (h.exportEntries.map _).nodup hitems.exports

end Rearranged

/-- Where no key is repeated, an entry is found by its key. -/
theorem find?_key_iff
    {α : Type}
    {key : α → String}
    {l : List α}
    (h : (l.map key).Nodup)
    {k : String}
    {a : α} :
    l.find? (fun x => key x == k) = some a ↔ a ∈ l ∧ key a = k := by
  constructor
  · intro hfind
    exact ⟨List.mem_of_find?_eq_some hfind, by simpa using List.find?_some hfind⟩
  · rintro ⟨hmem, hkey⟩
    obtain ⟨b, hb⟩ : ∃ b, l.find? (fun x => key x == k) = some b :=
      Option.isSome_iff_exists.mp (List.find?_isSome.mpr ⟨a, hmem, by simpa using hkey⟩)
    have hsame : key b = key a := by
      rw [hkey]
      simpa using List.find?_some hb
    rw [hb, List.inj_on_of_nodup_map h (List.mem_of_find?_eq_some hb) hmem hsame]

theorem find?_key_of_perm
    {α : Type}
    {key : α → String}
    {l l' : List α}
    (h : (l.map key).Nodup)
    (hperm : l.Perm l')
    (k : String) :
    l.find? (fun x => key x == k) = l'.find? (fun x => key x == k) := by
  ext a
  rw [find?_key_iff h, find?_key_iff ((hperm.map key).nodup h), hperm.mem_iff]

namespace Catalog

variable {text : String} {program program' : Program} {catalog : Catalog}

theorem unambiguous_of_build (h : build text program = .ok catalog) :
    Unambiguous program.items :=
  (build_eq_ok_iff text program).mp ⟨catalog, h⟩

/-- A rearranged module has a catalog too, and its public names stand for the same. -/
theorem exportOf?_of_rearranged
    (h : build text program = .ok catalog)
    (hsame : Rearranged program program')
    (text' : String) :
    ∃ catalog', build text' program' = .ok catalog' ∧
      ∀ exported, catalog'.exportOf? exported = catalog.exportOf? exported := by
  have hitems := unambiguous_of_build h
  obtain ⟨catalog', h'⟩ := (build_eq_ok_iff text' program').mpr (hsame.unambiguous hitems)
  refine ⟨catalog', h', fun exported => ?_⟩
  obtain ⟨-, hexports, -⟩ := lists_build h
  obtain ⟨-, hexports', -⟩ := lists_build h'
  have hfind : ∀ name, program.importEntries.find? (·.name == name) =
      program'.importEntries.find? (·.name == name) :=
    find?_key_of_perm hitems.imports hsame.importEntries
  have hlink : linkExport program.importEntries = linkExport program'.importEntries := by
    funext entry
    simp only [linkExport, hfind]
  have hperm : catalog.exports.Perm catalog'.exports := by
    rw [hexports, hexports', hlink]
    exact hsame.exportEntries.map _
  exact (find?_key_of_perm (nodup_exportNames h) hperm exported).symm

end Catalog
end EsModules
