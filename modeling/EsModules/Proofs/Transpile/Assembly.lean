import EsModules.Proofs.SourceMap.Fidelity
import EsModules.Proofs.Transpile.Outcome

/-!
# How an output is put together

A transpilation that succeeds has read the module, catalogued it, recorded its edits and asked the
target for the code around it.  `Assembly` holds all of these, with the equations that say where
they come from, and `Assembly.Gives` says what becomes of them.  Every output comes from an
assembly (`exists_assembly`), so nothing behind it opens the transpilation again.
-/

namespace EsModules
namespace Transpile

open Syntax Edit

/-- What a transpilation that succeeds computes on its way. -/
structure Assembly (target : Target) (text : String) (options : TranspileOptions) where
  name : String
  program : Program
  catalog : Catalog
  keys : List (String × String)
  declarations : List Edit
  prologue : String
  wrapper : Wrapper
  hname : options.requireRegistryName = .ok name
  hparse : Program.parse text = .ok program
  hcatalog : Catalog.build text program = .ok catalog
  hkeys : options.registryKeys catalog.sources = .ok keys
  hdeclarations :
    declarationEdits target ⟨name, options, catalog, keys⟩ [] program.items = .ok declarations
  hprologue : target.prologue ⟨name, options, catalog, keys⟩ = .ok prologue
  hwrapper : target.wrap ⟨name, options, catalog, keys⟩ = .ok wrapper

/-- Values computed one after the other stand beside what they are computed from. -/
theorem forall₂_of_mapM
    {α β ε : Type}
    {f : α → Except ε β}
    {l : List α}
    {bs : List β}
    (h : l.mapM f = .ok bs) :
    List.Forall₂ (fun a b => f a = .ok b) l bs := by
  induction l generalizing bs with
  | nil =>
      cases h
      exact .nil
  | cons a l ih =>
      rw [List.mapM_cons] at h
      obtain ⟨b, hb, h⟩ := bind_eq_ok.mp h
      obtain ⟨more, hmore, h⟩ := bind_eq_ok.mp h
      cases h
      exact .cons hb (ih hmore)

theorem getElem?_of_forall₂
    {α β : Type}
    {R : α → β → Prop}
    {as : List α}
    {bs : List β}
    (h : List.Forall₂ R as bs)
    {i : Nat}
    {a : α}
    (ha : as[i]? = some a) :
    ∃ b, bs[i]? = some b ∧ R a b := by
  obtain ⟨hlt, rfl⟩ := List.getElem?_eq_some_iff.mp ha
  have hlt' : i < bs.length := h.length_eq ▸ hlt
  exact ⟨bs[i], List.getElem?_eq_getElem hlt', h.get hlt hlt'⟩

/-- The keys stand beside the sources that they are keys of. -/
theorem forall₂_registryKeys
    {options : TranspileOptions}
    {sources : List String}
    {keys : List (String × String)}
    (h : options.registryKeys sources = .ok keys) :
    List.Forall₂ (fun source entry => entry.1 = source ∧
      options.registryKey source = .ok entry.2) sources keys := by
  refine (forall₂_of_mapM h).imp ?_
  intro source entry hentry
  obtain ⟨key, hkey, hpair⟩ := bind_eq_ok.mp hentry
  cases hpair
  exact ⟨rfl, hkey⟩

theorem map_registryKeys
    {options : TranspileOptions}
    {sources : List String}
    {keys : List (String × String)}
    (h : options.registryKeys sources = .ok keys) :
    keys.map (·.1) = sources := by
  have hkeys := forall₂_registryKeys h
  clear h
  induction hkeys with
  | nil => rfl
  | cons hentry _ ih => rw [List.map_cons, ih, hentry.1]

namespace Assembly

variable {target : Target} {text : String} {options : TranspileOptions}

/-- What the target sees of the module. -/
def view (a : Assembly target text options) : ModuleView :=
  ⟨a.name, options, a.catalog, a.keys⟩

/-- The edits of the references. -/
def references (a : Assembly target text options) : List Edit :=
  a.program.occurrences.filterMap (renaming? a.program a.view)

def edits (a : Assembly target text options) : List Edit :=
  moduleEdits a.program text a.prologue a.wrapper.header a.declarations a.references

/-- The text before the module, with the hashbang. -/
def header (a : Assembly target text options) : String :=
  (hoistHashbang a.program text a.wrapper.header).1

/-- The text behind the module. -/
def footer (a : Assembly target text options) : String :=
  tail text (target.epilogue a.view) ++ a.wrapper.footer

/-- The output is the edited module between the header and the footer. -/
structure Gives (a : Assembly target text options) (r : Rendered) : Prop where
  code : r.code.toList = a.header.toList ++ spliced a.edits 0 text.toList ++ a.footer.toList
  mappings : r.map.mappings =
    Mapping.ofPieces (.behind a.header.toList) ⟨0, 0⟩
      (Piece.cut 0 text.toList (Edit.sort a.edits))

theorem ready (a : Assembly target text options) : Ready a.view :=
  ⟨(Catalog.covers_build a.hcatalog).closed,
    fun _ hsource => find?_keys ((map_registryKeys a.hkeys).symm ▸ hsource)⟩

/-- The edits of some statements fit to them. -/
theorem fits_of_declarationEdits
    {loaded : List String}
    {items : List Item}
    {edits : List Edit}
    {lo hi : Nat}
    (a : Assembly target text options)
    (hlaid : Laid text.toList lo items hi)
    (hitems : items ⊆ a.program.items)
    (h : declarationEdits target a.view loaded items = .ok edits) :
    Fits text.toList items edits := by
  have hcovers := Catalog.covers_build a.hcatalog
  obtain ⟨edits', hedits, hfits⟩ :=
    declarationEdits_eq_ok a.ready hlaid
      (fun x hx _ hsource => hcovers.mem_sources_iff.mpr ⟨x, hitems hx, hsource⟩) target loaded
  cases h.symm.trans hedits
  exact hfits

theorem fits (a : Assembly target text options) :
    Fits text.toList a.program.items a.declarations := by
  obtain ⟨first, middle, last, hlaid⟩ := Program.laidOut_of_parse a.hparse
  exact a.fits_of_declarationEdits hlaid.items (List.Subset.refl _) a.hdeclarations

theorem applicable (a : Assembly target text options) : Applicable text.toList a.edits := by
  obtain ⟨first, middle, last, hlaid⟩ := Program.laidOut_of_parse a.hparse
  exact applicable_edits hlaid a.prologue a.wrapper.header a.fits
    (sublist_spans_renamings a.program a.view a.program.occurrences)

end Assembly

theorem parse_of_parseModule
    {file text : String}
    {program : Program}
    (h : parseModule file text = .ok program) :
    Program.parse text = .ok program := by
  unfold parseModule at h
  split at h
  · cases h
    assumption
  · cases h

/-- Every output is put together from an assembly. -/
theorem exists_assembly
    {target : Target}
    {text : String}
    {options : TranspileOptions}
    {r : Rendered}
    (h : transpileFor target text options = .ok r) :
    ∃ a : Assembly target text options, a.Gives r := by
  obtain ⟨name, hname, h⟩ := bind_eq_ok.mp h
  obtain ⟨draft, hdraft, h⟩ := bind_eq_ok.mp h
  obtain ⟨program, hmodule, hdraft⟩ := bind_eq_ok.mp hdraft
  obtain ⟨catalog, hcatalog, hdraft⟩ := bind_eq_ok.mp hdraft
  obtain ⟨keys, hkeys, hdraft⟩ := bind_eq_ok.mp hdraft
  obtain ⟨declarations, hdeclarations, hdraft⟩ := bind_eq_ok.mp hdraft
  obtain ⟨references, hreferences, hdraft⟩ := bind_eq_ok.mp hdraft
  obtain ⟨prologue, hprologue, hdraft⟩ := bind_eq_ok.mp hdraft
  obtain ⟨wrapper, hwrapper, hdraft⟩ := bind_eq_ok.mp hdraft
  have hparse := parse_of_parseModule hmodule
  let view : ModuleView := ⟨name, options, catalog, keys⟩
  have hclosed : view.catalog.Closed := (Catalog.covers_build hcatalog).closed
  have hedits := referenceEdits_eq hclosed (ScopeTable.build_references program)
  cases hreferences.symm.trans hedits
  cases hdraft
  let a : Assembly target text options :=
    ⟨name, program, catalog, keys, declarations, prologue, wrapper, hname, hparse, hcatalog,
      hkeys, hdeclarations, hprologue, hwrapper⟩
  have hrendered : ∀ source file, Rendered.ofEdits text a.edits a.header a.footer source file =
      .ok r → a.Gives r := by
    intro source file hr
    cases hr.symm.trans (Rendered.ofEdits_eq_ok a.applicable a.header a.footer source file)
    exact ⟨by simp, rfl⟩
  exact ⟨a, hrendered _ _ h⟩

end Transpile
end EsModules
