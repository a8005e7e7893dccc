import EsModules.Proofs.Catalog.Entries
import EsModules.Proofs.Transpile.References

/-!
# Capture of module handles

A reference to an import is replaced by an expression that begins with the handle of the imported
module, a name that the source does not write.  The rewriter looks for declarations of the imported
name around the reference and not for declarations of the handle: handles are numbered and nothing
keeps them away from the names of the module.

`handle_captured_iff` says when a scope around a rewritten reference declares the handle, first in
the scope table and then in the code, and that this needs a declaration of the handle in the
module.
-/

namespace EsModules

open Syntax

/-! ### All names that a piece of code declares -/

namespace Syntax

mutual

/-- The names that a piece of code declares in any scope. -/
def Node.declaredNames : Node → List String
  | .reference _ _ => []
  | .property key value => declaredNamesOf key ++ declaredNamesOf value
  | .shorthand _ _ => []
  | .target _ _ value => declaredNamesOf value
  | .bindings _ patterns code => namesOf patterns ++ declaredNamesOf code
  | .function _ _ name parameters head body =>
      name.toList ++ namesOf parameters ++ declaredNamesOf head ++ declaredNamesOf body
  | .classDef _ _ name code => name.toList ++ declaredNamesOf code
  | .staticBlock code => declaredNamesOf code
  | .block _ code => declaredNamesOf code
  | .loop _ _ code => declaredNamesOf code
  | .switch _ subject cases => declaredNamesOf subject ++ declaredNamesOf cases
  | .handler _ parameter code => namesOf parameter.toList ++ declaredNamesOf code
  | .imports names => names

/-- The names that several pieces of code declare in any scope. -/
def declaredNamesOf : List Node → List String
  | [] => []
  | node :: rest => node.declaredNames ++ declaredNamesOf rest

end

/-- The names that a module declares in any scope. -/
def Program.declaredNames (program : Program) : List String :=
  declaredNamesOf program.code

/-- A scope around an identifier, with the module that declares `moduleNames`, declares the name. -/
def Occurrence.Sees (moduleNames : List String) (o : Occurrence) (name : String) : Prop :=
  ∃ scope ∈ o.around ++ [moduleNames], name ∈ scope

instance (moduleNames : List String) (o : Occurrence) (name : String) :
    Decidable (o.Sees moduleNames name) :=
  inferInstanceAs (Decidable (∃ scope ∈ o.around ++ [moduleNames], name ∈ scope))

mutual

/-- The names that code gives to the scopes around it are among all that it declares. -/
theorem Node.mem_declaredNames
    (node : Node)
    {x : String}
    (h : x ∈ node.blockNames ∨ x ∈ node.varNames ∨ x ∈ node.importNames) :
    x ∈ node.declaredNames := by
  cases node with
  | reference span name => simp [Node.blockNames, Node.varNames, Node.importNames] at h
  | property key value =>
      have hkey := mem_declaredNamesOf key (x := x)
      have hvalue := mem_declaredNamesOf value (x := x)
      simp only [Node.blockNames, Node.varNames, Node.importNames, Node.declaredNames,
        List.mem_append] at h ⊢
      tauto
  | shorthand span name => simp [Node.blockNames, Node.varNames, Node.importNames] at h
  | target span name value => exact mem_declaredNamesOf value h
  | bindings kind patterns code =>
      have hcode := mem_declaredNamesOf code (x := x)
      by_cases hkind : kind = .var <;>
        simp only [Node.blockNames, Node.varNames, Node.importNames, Node.declaredNames, hkind,
          if_true, if_false, List.mem_append, List.not_mem_nil] at h ⊢ <;>
        tauto
  | function declared span name parameters head body =>
      have hhead := mem_declaredNamesOf head (x := x)
      have hbody := mem_declaredNamesOf body (x := x)
      cases declared <;>
        simp only [Node.blockNames, Node.varNames, Node.importNames, Node.declaredNames,
          List.mem_append, List.not_mem_nil, if_true, if_false, Bool.false_eq_true] at h ⊢ <;>
        tauto
  | classDef declared span name code =>
      have hcode := mem_declaredNamesOf code (x := x)
      cases declared <;>
        simp only [Node.blockNames, Node.varNames, Node.importNames, Node.declaredNames,
          List.mem_append, List.not_mem_nil, if_true, if_false, Bool.false_eq_true] at h ⊢ <;>
        tauto
  | staticBlock code => exact mem_declaredNamesOf code h
  | block span code =>
      have hcode := mem_declaredNamesOf code (x := x)
      simp only [Node.blockNames, Node.varNames, Node.importNames, Node.declaredNames,
        List.not_mem_nil] at h ⊢
      tauto
  | loop kind span code =>
      have hcode := mem_declaredNamesOf code (x := x)
      simp only [Node.blockNames, Node.varNames, Node.importNames, Node.declaredNames,
        List.not_mem_nil] at h ⊢
      tauto
  | switch span subject cases =>
      have hsubject := mem_declaredNamesOf subject (x := x)
      have hcases := mem_declaredNamesOf cases (x := x)
      simp only [Node.blockNames, Node.varNames, Node.importNames, Node.declaredNames,
        List.mem_append] at h ⊢
      tauto
  | handler span parameter code =>
      have hcode := mem_declaredNamesOf code (x := x)
      simp only [Node.blockNames, Node.varNames, Node.importNames, Node.declaredNames,
        List.not_mem_nil, List.mem_append] at h ⊢
      tauto
  | imports names =>
      simpa [Node.blockNames, Node.varNames, Node.importNames, Node.declaredNames] using h

theorem mem_declaredNamesOf
    (code : List Node)
    {x : String}
    (h : x ∈ blockNamesOf code ∨ x ∈ varNamesOf code ∨ x ∈ importNamesOf code) :
    x ∈ declaredNamesOf code := by
  cases code with
  | nil => simp [blockNamesOf, varNamesOf, importNamesOf] at h
  | cons node rest =>
      have hnode := node.mem_declaredNames (x := x)
      have hrest := mem_declaredNamesOf rest (x := x)
      simp only [blockNamesOf, varNamesOf, importNamesOf, declaredNamesOf, List.mem_append] at h ⊢
      tauto

end

/-- Code under one more scope declares what is seen from inside, if it declares the names of that
scope. -/
theorem mem_of_around_within
    {scope names : List String}
    {occurrences : List Occurrence}
    (hscope : ∀ x ∈ scope, x ∈ names)
    (hinner : ∀ o ∈ occurrences, ∀ inner ∈ o.around, ∀ x ∈ inner, x ∈ names) :
    ∀ o ∈ occurrences.map (·.within scope), ∀ inner ∈ o.around, ∀ x ∈ inner, x ∈ names := by
  intro o ho inner hin x hx
  obtain ⟨o', ho', rfl⟩ := List.mem_map.mp ho
  rcases List.mem_append.mp hin with hin | hin
  · exact hinner o' ho' inner hin x hx
  · obtain rfl := List.mem_singleton.mp hin
    exact hscope x hx

mutual

/-- The scopes that code puts around its identifiers have names that it declares. -/
theorem Node.around_subset_declaredNames (node : Node) :
    ∀ o ∈ node.occurrences, ∀ scope ∈ o.around, ∀ x ∈ scope, x ∈ node.declaredNames := by
  cases node with
  | reference span name => simp [Node.occurrences]
  | property key value =>
      intro o ho scope hscope x hx
      have hkey := fun ho => around_subset_declaredNamesOf key o ho scope hscope x hx
      have hvalue := fun ho => around_subset_declaredNamesOf value o ho scope hscope x hx
      simp only [Node.occurrences, Node.declaredNames, List.mem_append] at ho ⊢
      tauto
  | shorthand span name => simp [Node.occurrences]
  | target span name value =>
      intro o ho scope hscope x hx
      rcases List.mem_cons.mp ho with rfl | ho
      · cases hscope
      · exact around_subset_declaredNamesOf value o ho scope hscope x hx
  | bindings kind patterns code =>
      intro o ho scope hscope x hx
      exact List.mem_append_right _ (around_subset_declaredNamesOf code o ho scope hscope x hx)
  | function declared span name parameters head body =>
      refine mem_of_around_within ?_ ?_
      · intro x hx
        have hhead := mem_declaredNamesOf head (x := x)
        have hbody := mem_declaredNamesOf body (x := x)
        have hname : x ∈ (if declared then [] else name.toList) → x ∈ name.toList := by
          cases declared <;> simp
        simp only [functionScope, Node.declaredNames, List.mem_append] at hx ⊢
        tauto
      · intro o ho scope hscope x hx
        have hhead := fun ho => around_subset_declaredNamesOf head o ho scope hscope x hx
        have hbody := fun ho => around_subset_declaredNamesOf body o ho scope hscope x hx
        simp only [Node.declaredNames, List.mem_append] at ho ⊢
        tauto
  | classDef declared span name code =>
      refine mem_of_around_within ?_ ?_
      · intro x hx
        have hcode := mem_declaredNamesOf code (x := x)
        have hname : x ∈ (if declared then [] else name.toList) → x ∈ name.toList := by
          cases declared <;> simp
        simp only [classScope, Node.declaredNames, List.mem_append] at hx ⊢
        tauto
      · intro o ho scope hscope x hx
        exact List.mem_append_right _ (around_subset_declaredNamesOf code o ho scope hscope x hx)
  | staticBlock code => exact around_subset_declaredNamesOf code
  | block span code =>
      refine mem_of_around_within ?_ (around_subset_declaredNamesOf code)
      exact fun x hx => mem_declaredNamesOf code (.inl hx)
  | loop kind span code =>
      refine mem_of_around_within ?_ (around_subset_declaredNamesOf code)
      exact fun x hx => mem_declaredNamesOf code (.inl hx)
  | switch span subject cases =>
      have hcases := mem_of_around_within
        (fun x hx => mem_declaredNamesOf cases (.inl hx)) (around_subset_declaredNamesOf cases)
      intro o ho scope hscope x hx
      rcases List.mem_append.mp ho with ho | ho
      · exact List.mem_append_left _ (around_subset_declaredNamesOf subject o ho scope hscope x hx)
      · exact List.mem_append_right _ (hcases o ho scope hscope x hx)
  | handler span parameter code =>
      refine mem_of_around_within ?_ ?_
      · intro x hx
        have hcode := mem_declaredNamesOf code (x := x)
        simp only [handlerScope, Node.declaredNames, List.mem_append] at hx ⊢
        tauto
      · intro o ho scope hscope x hx
        exact List.mem_append_right _ (around_subset_declaredNamesOf code o ho scope hscope x hx)
  | imports names => simp [Node.occurrences]

theorem around_subset_declaredNamesOf (code : List Node) :
    ∀ o ∈ occurrencesOf code, ∀ scope ∈ o.around, ∀ x ∈ scope, x ∈ declaredNamesOf code := by
  cases code with
  | nil => simp [occurrencesOf]
  | cons node rest =>
      intro o ho scope hscope x hx
      rcases List.mem_append.mp ho with ho | ho
      · exact List.mem_append_left _ (node.around_subset_declaredNames o ho scope hscope x hx)
      · exact List.mem_append_right _ (around_subset_declaredNamesOf rest o ho scope hscope x hx)

end

/-- A name that is seen at an identifier of the module is declared in the module. -/
theorem Program.mem_declaredNames_of_sees
    {program : Program}
    {o : Occurrence}
    (ho : o ∈ program.occurrences)
    {name : String}
    (h : o.Sees program.scopeNames name) :
    name ∈ program.declaredNames := by
  obtain ⟨scope, hscope, hname⟩ := h
  rcases List.mem_append.mp hscope with hscope | hscope
  · exact around_subset_declaredNamesOf program.code o ho scope hscope name hname
  · obtain rfl := List.mem_singleton.mp hscope
    apply mem_declaredNamesOf program.code
    simpa [Program.scopeNames, or_assoc] using hname

end Syntax

/-! ### Declarations around a reference -/

namespace ScopeTable

/-- A scope around the reference, the module's included, declares the name. -/
def Captures (t : ScopeTable) (r : Reference) (name : String) : Prop :=
  ∃ id ∈ t.enclosing r.scope, t.scopeIs (·.declares name) id = true

/-- The scopes on the way to the module declare what the code around declares. -/
theorem Nested.declared_enclosing_iff
    {t : ScopeTable}
    (ht : t.Nested)
    {id : Nat}
    {around : List (List String)}
    (hin : t.Inside 0 1 id around)
    (name : String) :
    (∃ k ∈ t.enclosing id, t.scopeIs (·.declares name) k = true) ↔
      ∃ scope ∈ around ++ [t.namesAt 0], name ∈ scope := by
  induction hin with
  | here =>
      obtain ⟨root, hroot, -⟩ := ht.root
      rw [ht.enclosing_root]
      simp [scopeIs, namesAt, Scope.declares, hroot]
  | @step id p s names rest hid hs hp hnames _ ih =>
      have hhere : t.scopeIs (·.declares name) id = true ↔ name ∈ names := by
        simp [scopeIs, Scope.declares, hs, hnames]
      simp only [ht.enclosing_of_parent hs hp, List.cons_append, List.exists_mem_cons_iff,
        hhere, ih]

/-- A name is captured at a reference if it is seen at the identifier that the reference stands
for. -/
theorem StandsFor.captures_iff
    {program : Program}
    {r : Reference}
    {o : Occurrence}
    (h : (build program).StandsFor 0 1 r o)
    (name : String) :
    (build program).Captures r name ↔ o.Sees program.scopeNames name := by
  have hmodule := mem_namesAt_build program name
  have hdeclared := (entered_build program).nested.declared_enclosing_iff h.inside name
  simpa [Captures, Occurrence.Sees, or_and_right, exists_or, hmodule] using hdeclared

end ScopeTable

namespace Transpile

/-- The text that replaces a reference reads a handle, and a scope around the reference declares
that handle if and only if the code around the identifier does, for which the module has to declare
the handle somewhere. -/
theorem handle_captured_iff
    {text : String}
    {program : Program}
    {catalog : Catalog}
    (hcatalog : Catalog.build text program = .ok catalog)
    {r : Reference}
    (hr : r ∈ (ScopeTable.build program).references)
    {i : ImportEntry}
    (hread : importRead? (ScopeTable.build program) catalog r = some i)
    (registryName : String)
    (options : TranspileOptions)
    (keys : List (String × String)) :
    ∃ index : Nat, ∃ o ∈ program.occurrences,
      program.distinctSources[index]? = some i.source ∧
      o.span = r.span ∧
      referenceText ⟨registryName, options, catalog, keys⟩ r i =
        .ok (renamed options.format o i (Catalog.handleName index)) ∧
      ((ScopeTable.build program).Captures r (Catalog.handleName index) ↔
        o.Sees program.scopeNames (Catalog.handleName index)) ∧
      (o.Sees program.scopeNames (Catalog.handleName index) →
        Catalog.handleName index ∈ program.declaredNames) := by
  obtain ⟨o, ho, hstands⟩ := exists_of_forall₂ (ScopeTable.build_references program) hr
  have himport : catalog.importOf? r.name = some i := by
    unfold importRead? at hread
    split at hread
    · exact hread
    · cases hread
  have hsource : i.source ∈ catalog.sources :=
    (Catalog.covers_build hcatalog).closed.imports i (List.mem_of_find?_eq_some himport)
  let view : ModuleView := ⟨registryName, options, catalog, keys⟩
  obtain ⟨handle, hhandle, hrequire⟩ : ∃ handle, view.catalog.handle? i.source = some handle ∧
      view.requireHandle i.source = .ok handle :=
    requireHandle_of_mem hsource
  obtain ⟨index, hindex, rfl⟩ := Catalog.getElem?_of_handle? hhandle
  rw [Catalog.sources_build hcatalog] at hindex
  refine ⟨index, o, ho, hindex, hstands.span.symm, ?_, hstands.captures_iff _,
    Program.mem_declaredNames_of_sees ho⟩
  rw [referenceText, hrequire, renamed, hstands.name, hstands.shorthand]
  rfl

/-- An identifier that names an import and refers to the module stands behind a reference that
reads the import. -/
theorem exists_importRead?
    {program : Program}
    {catalog : Catalog}
    {o : Occurrence}
    (ho : o ∈ program.occurrences)
    (hmodule : o.refersToModule program.scopeNames)
    {i : ImportEntry}
    (himport : catalog.importOf? o.name = some i) :
    ∃ r ∈ (ScopeTable.build program).references, (ScopeTable.build program).StandsFor 0 1 r o ∧
      importRead? (ScopeTable.build program) catalog r = some i := by
  obtain ⟨r, hr, hstands⟩ :=
    exists_of_forall₂ (ScopeTable.build_references program).flip ho
  have hresolves := hstands.resolvesToModule_iff.mpr hmodule
  exact ⟨r, hr, hstands, by rw [importRead?, if_pos hresolves, hstands.name, himport]⟩

/-- A module that reads an import inside a function whose parameter has the name of a handle, and
again outside of it. -/
def handleParameter : String :=
  "import \x7b x \x7d from 'm';\nfunction f(__imports_0__) \x7b x(); \x7d\nx();\n"

theorem parse_handleParameter :
    ∃ program catalog,
      Program.parse handleParameter = .ok program ∧
      Catalog.build handleParameter program = .ok catalog ∧
      catalog.imports = [⟨"m", .named "x", "x"⟩] ∧
      catalog.sources = ["m"] ∧
      program.scopeNames = ["f", "x"] ∧
      program.occurrences =
        [⟨"x", ⟨51, 52⟩, false, [["__imports_0__"]]⟩, ⟨"x", ⟨58, 59⟩, false, []⟩] := by
  have hread : ((Program.parse handleParameter).toOption.map fun p =>
      (p.occurrences, p.scopeNames, (Catalog.build handleParameter p).toOption.map fun c =>
        (c.imports, c.sources))) =
      some ([⟨"x", ⟨51, 52⟩, false, [["__imports_0__"]]⟩, ⟨"x", ⟨58, 59⟩, false, []⟩], ["f", "x"],
        some ([⟨"m", .named "x", "x"⟩], ["m"])) := by
    decide +kernel
  obtain ⟨program, hparse, hfacts⟩ := ok_of_toOption_map hread
  simp only [Prod.mk.injEq] at hfacts
  obtain ⟨hoccurrences, hnames, hbuild⟩ := hfacts
  obtain ⟨catalog, hcatalog, hlists⟩ := ok_of_toOption_map hbuild
  simp only [Prod.mk.injEq] at hlists
  exact ⟨program, catalog, hparse, hcatalog, hlists.1, hlists.2, hnames, hoccurrences⟩

/-- The reference in the function is captured and the one behind it is not. -/
theorem handle_captured_iff_handleParameter :
    ∃ program catalog,
      Program.parse handleParameter = .ok program ∧
      Catalog.build handleParameter program = .ok catalog ∧
      (∃ r ∈ (ScopeTable.build program).references, r.span = ⟨51, 52⟩ ∧
        importRead? (ScopeTable.build program) catalog r = some ⟨"m", .named "x", "x"⟩ ∧
        (ScopeTable.build program).Captures r "__imports_0__") ∧
      ∃ r ∈ (ScopeTable.build program).references, r.span = ⟨58, 59⟩ ∧
        importRead? (ScopeTable.build program) catalog r = some ⟨"m", .named "x", "x"⟩ ∧
        ¬(ScopeTable.build program).Captures r "__imports_0__" := by
  obtain ⟨program, catalog, hparse, hcatalog, himports, hsources, hnames, hoccurrences⟩ :=
    parse_handleParameter
  have hx : catalog.importOf? "x" = some ⟨"m", .named "x", "x"⟩ := by
    simp [Catalog.importOf?, himports]
  -- The one source has the number 0, and an identifier is known by its place.
  have hseen : ∀ o ∈ program.occurrences, o.name = "x" → o.refersToModule program.scopeNames →
      ∃ r ∈ (ScopeTable.build program).references, r.span = o.span ∧
        importRead? (ScopeTable.build program) catalog r = some ⟨"m", .named "x", "x"⟩ ∧
        ((ScopeTable.build program).Captures r "__imports_0__" ↔
          o.Sees program.scopeNames "__imports_0__") := by
    intro o ho hname hmodule
    obtain ⟨r, hr, hstands, hread⟩ := exists_importRead? ho hmodule (by rw [hname, hx])
    obtain ⟨index, o', ho', hindex, hspan, -, hcaptures, -⟩ :=
      handle_captured_iff hcatalog hr hread "n" {} []
    have hsame : o' = o := List.inj_on_of_nodup_map (nodup_spans_occurrences hparse) ho' ho
      (hspan.trans hstands.span)
    rw [← Catalog.sources_build hcatalog, hsources] at hindex
    obtain rfl : index = 0 := by simpa using (List.getElem?_eq_some_iff.mp hindex).1
    exact ⟨r, hr, hstands.span, hread, hsame ▸ hcaptures⟩
  rw [hoccurrences, hnames] at hseen
  refine ⟨program, catalog, hparse, hcatalog, ?_, ?_⟩
  · obtain ⟨r, hr, hspan, hread, hcaptures⟩ :=
      hseen ⟨"x", ⟨51, 52⟩, false, [["__imports_0__"]]⟩ (by simp) rfl (by decide)
    exact ⟨r, hr, hspan, hread, hcaptures.mpr (by decide)⟩
  · obtain ⟨r, hr, hspan, hread, hcaptures⟩ :=
      hseen ⟨"x", ⟨58, 59⟩, false, []⟩ (by simp) rfl (by decide)
    exact ⟨r, hr, hspan, hread, fun h => absurd (hcaptures.mp h) (by decide)⟩

/-- A parameter with the name of a handle captures the handle of a reference in the function. -/
theorem handle_captured_by_parameter :
    ∃ program catalog,
      Program.parse handleParameter = .ok program ∧
      Catalog.build handleParameter program = .ok catalog ∧
      ∃ r ∈ (ScopeTable.build program).references, ∃ i,
        importRead? (ScopeTable.build program) catalog r = some i ∧
        referenceText ⟨"n", {}, catalog, []⟩ r i = .ok "__imports_0__.x" ∧
        (ScopeTable.build program).Captures r "__imports_0__" := by
  obtain ⟨program, catalog, hparse, hcatalog, himports, hsources, hnames, hoccurrences⟩ :=
    parse_handleParameter
  have hmodule : (⟨"x", ⟨51, 52⟩, false, [["__imports_0__"]]⟩ : Occurrence).refersToModule
      program.scopeNames := by
    rw [hnames]
    decide
  obtain ⟨r, hr, hstands, hread⟩ := exists_importRead? (by simp [hoccurrences]) hmodule
    (show catalog.importOf? "x" = some ⟨"m", .named "x", "x"⟩ by simp [Catalog.importOf?, himports])
  have hhandle : catalog.handle? "m" = some "__imports_0__" := by
    rw [Catalog.handle?, hsources]
    decide
  refine ⟨program, catalog, hparse, hcatalog, r, hr, _, hread, ?_, ?_⟩
  · simp only [referenceText, ModuleView.requireHandle, hhandle, hstands.shorthand]
    exact congrArg Except.ok
      (show accessExpression "__imports_0__" (.named "x") {} = "__imports_0__.x" by decide)
  · rw [hstands.captures_iff, hnames]
    decide

end Transpile
end EsModules
