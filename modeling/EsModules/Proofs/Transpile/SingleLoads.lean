import EsModules.Proofs.Transpile.LoadOrder

/-!
# Each source is loaded once

The catalog numbers the sources of a module while it reads the statements, and the transpilation
decides at each statement again whether its source is new.  Both go by the first statement that
names a source (`firstMentions`).  So for the targets that load modules by statements there are as
many of these as there are sources, each in the place of the first statement that names its source,
and their order in the output is that of the handles (`sources_loaded_once`).
-/

namespace EsModules

open Syntax

/-! ### First mentions -/

/-- The statements that name a source that is neither among the `known` ones nor named by a
statement before, with that source. -/
def firstMentions : List String → List Item → List (String × Item)
  | _, [] => []
  | known, item :: rest =>
      match item.source? with
      | none => firstMentions known rest
      | some source =>
          if source ∈ known then firstMentions (known ++ [source]) rest
          else (source, item) :: firstMentions (known ++ [source]) rest

/-- First mentions come in the order of the statements. -/
theorem sublist_firstMentions (known : List String) (items : List Item) :
    ((firstMentions known items).map Prod.snd).Sublist items := by
  induction items generalizing known with
  | nil => exact .slnil
  | cons item items ih =>
      rw [firstMentions]
      split
      · exact (ih known).cons item
      · split
        · exact (ih _).cons item
        · exact (ih _).cons_cons item

/-- The sources of the first mentions are the distinct ones, in order. -/
theorem eraseDups_firstMentions (known : List String) (items : List Item) :
    known.eraseDups ++ (firstMentions known items).map Prod.fst =
      (known ++ items.filterMap Item.source?).eraseDups := by
  induction items generalizing known with
  | nil => simp [firstMentions]
  | cons item items ih =>
      rw [firstMentions]
      cases hsource : item.source? with
      | none => simpa [hsource] using ih known
      | some source =>
          have hrest := ih (known ++ [source])
          have hsources : known ++ (item :: items).filterMap Item.source? =
              known ++ [source] ++ items.filterMap Item.source? := by
            simp [hsource]
          rw [hsources, ← hrest, List.eraseDups_append]
          by_cases hknown : source ∈ known
          · simp [hknown, List.removeAll]
          · simp [hknown, List.removeAll, List.eraseDups_cons]

/-- A first mention is the first statement that names its source. -/
theorem find?_of_mem_firstMentions
    {known : List String}
    {items : List Item}
    {source : String}
    {item : Item}
    (h : (source, item) ∈ firstMentions known items) :
    source ∉ known ∧ items.find? (·.source? == some source) = some item := by
  induction items generalizing known with
  | nil => cases h
  | cons first items ih =>
      rw [firstMentions] at h
      split at h
      · rename_i hnone
        obtain ⟨hnew, hfind⟩ := ih h
        exact ⟨hnew, by simpa [hnone] using hfind⟩
      · rename_i other hother
        have hrest : (source, item) ∈ firstMentions (known ++ [other]) items →
            source ∉ known ∧
              (first :: items).find? (·.source? == some source) = some item := by
          intro hmem
          obtain ⟨hnew, hfind⟩ := ih hmem
          simp only [List.mem_append, List.mem_singleton, not_or] at hnew
          refine ⟨hnew.1, ?_⟩
          rw [List.find?_cons_of_neg (by simp [hother, Ne.symm hnew.2]), hfind]
        split at h
        · exact hrest h
        · rename_i hnew
          rcases List.mem_cons.mp h with h | h
          · cases h
            exact ⟨hnew, by simp [hother]⟩
          · exact hrest h

namespace Transpile

open Text Edit

/-! ### Declared handles -/

/-- A generated text begins with the declaration of a handle. -/
def declaresHandle (text : String) : Bool :=
  "var __imports_".toList.isPrefixOf text.toList

theorem declaresHandle_of_front (i : Nat) (rest : String) :
    declaresHandle ("var " ++ Catalog.handleName i ++ rest) = true := by
  have hfront : "var __imports_" = "var " ++ "__imports_" := by decide
  rw [declaresHandle, List.isPrefixOf_iff_prefix, Catalog.handleName, hfront]
  simp only [toString, String.toList_append, List.append_assoc]
  exact ⟨_, rfl⟩

theorem declaresHandle_defaultEdits
    (span inner : Span)
    (value : DefaultValue) :
    ∀ e ∈ defaultEdits span inner value, declaresHandle e.text = false := by
  have hnothing : declaresHandle "" = false := by decide
  have hassignment : declaresHandle defaultAssignment = false := by decide
  have hboth : ∀ e ∈ [Edit.replace ⟨span.start, inner.start⟩ defaultAssignment,
      .insert inner.stop ";"], declaresHandle e.text = false := by
    rw [List.forall_mem_cons, List.forall_mem_singleton]
    exact ⟨hassignment, show declaresHandle ";" = false by decide⟩
  cases value with
  | function name =>
      cases name with
      | some name => exact List.forall_mem_singleton.mpr hnothing
      | none => exact hboth
  | classDef name =>
      cases name with
      | some name => exact List.forall_mem_singleton.mpr hnothing
      | none => exact hboth
  | name name => exact List.forall_mem_singleton.mpr hnothing
  | expression => exact List.forall_mem_singleton.mpr hassignment
  | interface => exact List.forall_mem_singleton.mpr hassignment

theorem head?_of_declaresHandle
    {text : String}
    (h : declaresHandle text = true) :
    text.toList.head? = some 'v' := by
  unfold declaresHandle at h
  cases hchars : text.toList with
  | nil => simp [hchars] at h
  | cons c cs =>
      rw [hchars] at h
      simp only [List.isPrefixOf_iff_prefix, String.reduceToList, List.cons_prefix_cons] at h
      rw [List.head?_cons, ← h.1]

theorem head?_trimEnd
    {text : String}
    {c : Char}
    (h : (trimEnd text).toList.head? = some c) :
    text.toList.head? = some c := by
  have hprefix : (trimEnd text).toList <+: text.toList := by
    rw [trimEnd, String.toList_ofList, dropEndWhile, ← List.reverse_suffix, List.reverse_reverse]
    exact List.dropWhile_suffix isBlank
  obtain ⟨back, hback⟩ := hprefix
  rw [← hback, List.head?_append, h]
  rfl

theorem head?_moduleStarExport (view : ModuleView) (handle : String) :
    (moduleStarExport view handle).toList.head? = some 'O' := by
  have hkeys : "Object.keys(".toList = 'O' :: "bject.keys(".toList := by decide
  unfold moduleStarExport starExportLoop
  simp only [toString, String.toList_append, List.append_assoc]
  rw [hkeys, List.cons_append, List.head?_cons]

/-- The loop that publishes the exports of a handle declares none. -/
theorem declaresHandle_starExport
    {target : Target}
    (h : ByStatements target)
    (view : ModuleView)
    (handle : String) :
    declaresHandle (trimEnd (target.starExport view handle)) = false := by
  have hloop : target.starExport view handle = moduleStarExport view handle := by
    cases h <;> rfl
  by_contra hdeclares
  have hhead := head?_trimEnd (head?_of_declaresHandle (by simpa using hdeclares))
  rw [hloop, head?_moduleStarExport] at hhead
  cases hhead

/-! ### Statements -/

theorem firstMentions_cons (known : List String) (item : Item) (items : List Item) :
    firstMentions known (item :: items) =
      firstMentions known [item] ++ firstMentions (known ++ item.source?.toList) items := by
  simp only [firstMentions]
  cases item.source? with
  | none => simp
  | some source => by_cases hknown : source ∈ known <;> simp [hknown]

namespace Assembly

variable {target : Target} {text : String} {options : TranspileOptions}

/-- The edit stands in the place of a statement and loads a source into the handle with the number
of the source.  A statement that exports everything from the source is replaced by more than that.
-/
structure Introduces (a : Assembly target text options) (mention : String × Item) (e : Edit) :
    Prop where
  place : e.span = mention.2.span
  loads :
    ∃ i key,
      a.catalog.sources[i]? = some mention.1 ∧ a.keyTexts[i]? = some key ∧
      let loading := target.importStatement a.view ⟨Catalog.handleName i, mention.1, key⟩
      e.text = loading ∨
        e.text = starStatement loading (target.starExport a.view (Catalog.handleName i))

/-- A statement loads its source if that is named for the first time, and declares no handle
otherwise. -/
theorem introduces_itemEdits
    {loaded named : List String}
    {item : Item}
    {own : List Edit}
    (htarget : ByStatements target)
    (a : Assembly target text options)
    (h : itemEdits target a.view loaded item = .ok (own, named)) :
    List.Forall₂ a.Introduces (firstMentions loaded [item])
      (own.filter fun e => declaresHandle e.text) := by
  cases hsource : item.source? with
  | none =>
      have hnone : own.filter (fun e => declaresHandle e.text) = [] := by
        rw [List.filter_eq_nil_iff]
        have hnothing : declaresHandle "" = false := by decide
        cases item with
        | exportDeclaration => cases h; simp [Edit.remove, hnothing]
        | exportList => cases h; simp [Edit.remove, hnothing]
        | exportDefault span inner value code =>
            cases h
            simpa using declaresHandle_defaultEdits span inner value
        | statement => cases h; simp
        | _ => cases hsource
      rw [hnone, firstMentions, hsource]
      exact .nil
  | some source =>
      obtain ⟨handle, loading, statement, hload, rfl, hstatement⟩ := itemEdits_of_source h hsource
      obtain ⟨i, key, hi, hkey, rfl, hcase⟩ := a.load_cases hload
      rcases hcase with ⟨hloaded, rfl⟩ | ⟨hnew, rfl⟩
      · have hnone : declaresHandle statement = false := by
          rcases hstatement with rfl | rfl
          · decide
          · simpa [starStatement] using declaresHandle_starExport htarget a.view _
        simp [firstMentions, hsource, hloaded, text_replaceOrRemove, hnone]
      · have hdeclares : declaresHandle statement = true := by
          obtain ⟨value, hvalue⟩ :=
            htarget.importStatement_eq a.view ⟨Catalog.handleName i, source, key⟩
          rw [String.append_assoc, String.append_assoc] at hvalue
          rcases hstatement with rfl | rfl
          · rw [hvalue]
            exact declaresHandle_of_front i _
          · obtain ⟨rest, hrest⟩ := starStatement_eq _ _
            rw [hrest, hvalue, String.append_assoc]
            exact declaresHandle_of_front i _
        simp only [firstMentions, hsource, hnew, text_replaceOrRemove, hdeclares, if_false,
          List.filter_cons_of_pos, List.filter_nil]
        refine .cons ⟨span_replaceOrRemove _ _, i, key, hi, hkey, ?_⟩ .nil
        rw [text_replaceOrRemove]
        exact hstatement

theorem introduces_declarationEdits
    {loaded : List String}
    {items : List Item}
    {edits : List Edit}
    (htarget : ByStatements target)
    (a : Assembly target text options)
    (h : declarationEdits target a.view loaded items = .ok edits) :
    List.Forall₂ a.Introduces (firstMentions loaded items)
      (edits.filter fun e => declaresHandle e.text) := by
  induction items generalizing loaded edits with
  | nil =>
      cases h
      exact .nil
  | cons item items ih =>
      obtain ⟨⟨first, named⟩, hfirst, h⟩ := bind_eq_ok.mp h
      obtain ⟨more, hmore, h⟩ := bind_eq_ok.mp h
      cases h
      obtain ⟨rfl, -⟩ := a.loads_itemEdits hfirst
      rw [firstMentions_cons, List.filter_append]
      exact List.rel_append (a.introduces_itemEdits htarget hfirst) (ih hmore)

/-- The statements that load modules. -/
def loads (a : Assembly target text options) : List Edit :=
  a.declarations.filter fun e => declaresHandle e.text

/-- The edit stands in the place of the first statement that names the source with the number `i`
and loads that source into the handle with this number. -/
def LoadsSource (a : Assembly target text options) (i : Nat) (e : Edit) : Prop :=
  ∃ source key first,
    a.program.distinctSources[i]? = some source ∧
    options.registryKey source = .ok key ∧
    a.program.items.find? (·.source? == some source) = some first ∧
    e.span = first.span ∧
    let loading := target.importStatement a.view ⟨Catalog.handleName i, source, key⟩
    (∃ value, loading = "var " ++ Catalog.handleName i ++ " = " ++ value ++ ";") ∧
    (e.text = loading ∨
      e.text = starStatement loading (target.starExport a.view (Catalog.handleName i)))

theorem map_fst_firstMentions (a : Assembly target text options) :
    (firstMentions [] a.program.items).map Prod.fst = a.program.distinctSources := by
  exact eraseDups_firstMentions [] a.program.items

theorem length_loads
    (htarget : ByStatements target)
    (a : Assembly target text options) :
    a.loads.length = a.program.distinctSources.length := by
  rw [← a.map_fst_firstMentions, List.length_map]
  exact (a.introduces_declarationEdits htarget a.hdeclarations).length_eq.symm

theorem loadsSource
    {i : Nat}
    {e : Edit}
    (htarget : ByStatements target)
    (a : Assembly target text options)
    (h : a.loads[i]? = some e) :
    a.LoadsSource i e := by
  have hall := a.introduces_declarationEdits htarget a.hdeclarations
  obtain ⟨⟨source, first⟩, hmention, hplace, j, key, hj, hkey, htext⟩ :=
    getElem?_of_forall₂ hall.flip h
  have hsource : a.program.distinctSources[i]? = some source := by
    rw [← a.map_fst_firstMentions, List.getElem?_map, hmention]
    rfl
  -- the source has the number of its first mention, which is that of the statement
  cases a.number_unique ((Catalog.sources_build a.hcatalog).symm ▸ hsource) hj
  obtain ⟨key', hkey', hregistry⟩ := getElem?_of_forall₂ a.forall₂_keyTexts hj
  obtain rfl : key' = key := Option.some.inj (hkey'.symm.trans hkey)
  exact ⟨source, key', first, hsource, hregistry,
    (find?_of_mem_firstMentions (List.mem_of_getElem? hmention)).2, hplace,
    htarget.importStatement_eq a.view _, htext⟩

theorem mem_declarations_of_load
    {e : Edit}
    {a : Assembly target text options}
    (he : e ∈ a.loads) :
    e ∈ a.declarations :=
  (List.mem_filter.mp he).1

/-- A statement that loads a module takes the place of the first one that names the module. -/
theorem place_of_load
    {e : Edit}
    (htarget : ByStatements target)
    (a : Assembly target text options)
    (he : e ∈ a.loads) :
    ∃ source first, a.program.items.find? (·.source? == some source) = some first ∧
      e.span = first.span ∧ e.span.start < e.span.stop := by
  obtain ⟨i, hi⟩ := List.getElem?_of_mem he
  obtain ⟨source, -, first, -, -, hfound, hplace, -⟩ := a.loadsSource htarget hi
  refine ⟨source, first, hfound, hplace, ?_⟩
  rw [hplace]
  exact a.start_lt_of_source (List.mem_of_find?_eq_some hfound)
    (by simpa using List.find?_some hfound)

theorem pairwise_items (a : Assembly target text options) :
    a.program.items.Pairwise fun x y => x.span.stop ≤ y.span.start := by
  obtain ⟨first, middle, last, hlaid⟩ := Program.laidOut_of_parse a.hparse
  exact hlaid.items.pairwise

/-- The statements that load modules come in the order of the handles. -/
theorem pairwise_loads
    (htarget : ByStatements target)
    (a : Assembly target text options) :
    a.loads.Pairwise a.EndsBefore := by
  have hspans : a.loads.map (·.span) =
      ((firstMentions [] a.program.items).map Prod.snd).map Item.span := by
    have hall := a.introduces_declarationEdits htarget a.hdeclarations
    rw [← List.forall₂_eq_eq_eq, List.forall₂_map_left_iff, List.map_map,
      List.forall₂_map_right_iff]
    exact hall.flip.imp fun _ _ h => h.place
  have horder : (a.loads.map (·.span)).Pairwise fun x y => x.stop ≤ y.start := by
    rw [hspans]
    exact List.pairwise_map.mpr (a.pairwise_items.sublist (sublist_firstMentions [] _))
  refine (List.pairwise_map.mp horder).imp_of_mem fun {e e'} he he' hle => ?_
  obtain ⟨-, -, -, -, hspan⟩ := a.place_of_load htarget he
  obtain ⟨-, -, -, -, hspan'⟩ := a.place_of_load htarget he'
  have htext : e.text ≠ "" := by
    intro hempty
    have hdeclares := (List.mem_filter.mp he).2
    rw [hempty] at hdeclares
    cases hdeclares
  exact (a.endsBefore_iff (a.mem_edits_of_declaration (mem_declarations_of_load he))
    (a.mem_edits_of_declaration (mem_declarations_of_load he'))
    hspan hspan' htext (.inl hle)).mpr hle

/-- What takes the place of a statement whose source is named before. -/
def Repeats (a : Assembly target text options) (item : Item) (source : String) : Prop :=
  (∃ i, a.program.distinctSources[i]? = some source ∧
    ∃ e ∈ a.declarations, e.span = item.span ∧
      (e.text = "" ∨ e.text = trimEnd (target.starExport a.view (Catalog.handleName i)))) ∧
  ∀ e ∈ a.loads, e.span ≠ item.span

theorem repeats
    {before after : List Item}
    {item : Item}
    {source : String}
    (htarget : ByStatements target)
    (a : Assembly target text options)
    (hitems : a.program.items = before ++ item :: after)
    (hsource : item.source? = some source)
    (hbefore : source ∈ before.filterMap Item.source?) :
    a.Repeats item source := by
  constructor
  · obtain ⟨own, named, hown, hsubset⟩ := a.itemEdits_of_append (hitems ▸ a.hdeclarations)
    obtain ⟨handle, loading, statement, hload, rfl, hstatement⟩ := itemEdits_of_source hown hsource
    obtain ⟨i, key, hi, -, rfl, hcase⟩ := a.load_cases hload
    obtain rfl : loading = "" := (hcase.resolve_right fun h => h.1 (by simpa using hbefore)).2
    refine ⟨i, Catalog.sources_build a.hcatalog ▸ hi, _, hsubset (List.mem_singleton_self _),
      span_replaceOrRemove _ _, ?_⟩
    rw [text_replaceOrRemove]
    exact hstatement.imp_right fun h => by simpa [starStatement] using h
  · intro e he hspan
    obtain ⟨source', first, hfound, hplace, hlt⟩ := a.place_of_load htarget he
    have hpairwise := a.pairwise_items
    rw [hitems, List.pairwise_append, List.pairwise_cons] at hpairwise
    obtain ⟨-, ⟨hafter, -⟩, hacross⟩ := hpairwise
    rw [hplace] at hspan hlt
    have hfirst : first ∈ before ∨ first ∈ after := by
      rw [hitems, List.find?_append] at hfound
      cases hfront : before.find? (·.source? == some source') with
      | some other =>
          rw [hfront] at hfound
          cases hfound
          exact .inl (List.mem_of_find?_eq_some hfront)
      | none =>
          -- no statement before names the source that is loaded, so it is not that of `item`
          have hother : source ≠ source' := by
            rintro rfl
            obtain ⟨x, hx, hnames⟩ := List.mem_filterMap.mp hbefore
            exact List.find?_eq_none.mp hfront x hx (by simp [hnames])
          rw [hfront, Option.none_or, List.find?_cons_of_neg (by simp [hsource, hother])] at hfound
          exact .inr (List.mem_of_find?_eq_some hfound)
    rcases hfirst with hfirst | hfirst
    · have := hacross first hfirst item (by simp)
      rw [hspan] at this hlt
      omega
    · have := hafter first hfirst
      rw [hspan] at this hlt
      omega

/-- Each source is loaded by one statement: the statements that load modules have the numbers of
their handles, and a statement whose source is named before loads nothing. -/
structure LoadsOnce (a : Assembly target text options) (r : Rendered) : Prop where
  count : a.loads.length = a.program.distinctSources.length
  source : ∀ i e, a.loads[i]? = some e → a.LoadsSource i e
  order : a.loads.Pairwise a.EndsBefore
  written : ∀ e ∈ a.loads, a.upTo e.span.start ++ e.text.toList <+: r.code.toList
  repeated :
    ∀ before item after source, a.program.items = before ++ item :: after →
      item.source? = some source → source ∈ before.filterMap Item.source? → a.Repeats item source

theorem Gives.loadsOnce
    {a : Assembly target text options}
    {r : Rendered}
    (htarget : ByStatements target)
    (h : a.Gives r) :
    a.LoadsOnce r where
  count := a.length_loads htarget
  source := fun _ _ hi => a.loadsSource htarget hi
  order := a.pairwise_loads htarget
  written := by
    intro e he
    obtain ⟨-, -, -, -, hlt⟩ := a.place_of_load htarget he
    exact h.replaced_prefix (a.mem_edits_of_declaration (mem_declarations_of_load he)) hlt
  repeated := fun _ _ _ _ => a.repeats htarget

end Assembly

theorem ByStatements.total
    {target : Target}
    (h : ByStatements target) :
    Total target := by
  cases h with
  | cjs => exact total_targetNamed (show targetNamed "cjs" = .ok Target.cjs from rfl)
  | amdCjs => exact total_targetNamed (show targetNamed "amd-cjs" = .ok Target.amdCjs from rfl)
  | yui => exact total_targetNamed (show targetNamed "yui" = .ok Target.yui from rfl)
  | commonJs paths => exact total_commonJs paths

/-- The handles of a catalog are numbered as the sources are named, and the targets that load
modules by statements load each source once, in the order of the handles. -/
theorem sources_loaded_once
    {text : String}
    {program : Program}
    {catalog : Catalog}
    (hparse : Program.parse text = .ok program)
    (hcatalog : Catalog.build text program = .ok catalog) :
    catalog.sources = program.distinctSources ∧
      catalog.handles =
        program.distinctSources.zip (Catalog.handleNames program.distinctSources.length) ∧
      catalog.Closed ∧
      ∀ target, ByStatements target → ∀ options, Transpilable text options →
        ∃ (r : Rendered) (a : Assembly target text options),
          transpileFor target text options = .ok r ∧ a.Gives r ∧
          a.program = program ∧ a.catalog = catalog ∧ a.LoadsOnce r := by
  have hsources := Catalog.sources_build hcatalog
  refine ⟨hsources, ?_, (Catalog.covers_build hcatalog).closed, ?_⟩
  · refine List.zip_of_prod ?_ ?_
    · rw [← hsources, Catalog.handles, List.map_map]
      exact List.zipIdx_map_fst 0 _
    · rw [← hsources]
      exact Catalog.map_handles catalog
  · intro target htarget options htranspilable
    obtain ⟨r, hr⟩ := transpileFor_eq_ok htarget.total htranspilable
    obtain ⟨a, hgives⟩ := exists_assembly hr
    obtain rfl : a.program = program := Except.ok.inj (a.hparse.symm.trans hparse)
    obtain rfl : a.catalog = catalog := Except.ok.inj (a.hcatalog.symm.trans hcatalog)
    exact ⟨r, a, hr, hgives, rfl, rfl, hgives.loadsOnce htarget⟩

/-- A module that names three sources, each of them twice and in different statements. -/
def mixedSources : String :=
  "export * from 'b';\nimport x from 'a';\nexport \x7b y \x7d from 'b';\nimport 'c';\n" ++
    "export * as ns from 'a';\nexport * from 'c';\n"

theorem sources_loaded_once_mixedSources :
    ∃ program catalog, Program.parse mixedSources = .ok program ∧
      Catalog.build mixedSources program = .ok catalog ∧
      catalog.handles =
        [("b", "__imports_0__"), ("a", "__imports_1__"), ("c", "__imports_2__")] ∧
      ∃ (r : Rendered) (a : Assembly Target.yui mixedSources ⟨some "n", none, some "lib", {}⟩),
        transpileFor Target.yui mixedSources ⟨some "n", none, some "lib", {}⟩ = .ok r ∧
        a.LoadsOnce r ∧ ∃ first second third, a.loads = [first, second, third] ∧
          first.span = ⟨0, 18⟩ ∧ second.span = ⟨19, 37⟩ ∧ third.span = ⟨61, 72⟩ := by
  have hread : ((Program.parse mixedSources).toOption.map fun p =>
      ((["b", "a", "c"].map fun source =>
          (p.items.find? (·.source? == some source)).map Item.span),
        p.distinctSources, (Catalog.build mixedSources p).toOption.map fun _ => ())) =
      some ([some ⟨0, 18⟩, some ⟨19, 37⟩, some ⟨61, 72⟩], ["b", "a", "c"], some ()) := by
    decide +kernel
  obtain ⟨program, hparse, hfacts⟩ := ok_of_toOption_map hread
  simp only [Prod.mk.injEq, List.map_cons, List.map_nil, List.cons.injEq, and_true] at hfacts
  obtain ⟨⟨hfirst, hsecond, hthird⟩, hsources, hbuild⟩ := hfacts
  obtain ⟨catalog, hcatalog, -⟩ := ok_of_toOption_map hbuild
  have hnamed : Transpilable mixedSources ⟨some "n", none, some "lib", {}⟩ :=
    ⟨⟨"n", rfl, by decide⟩, program, ⟨hparse, catalog, hcatalog⟩, .inl rfl⟩
  obtain ⟨-, hhandles, -, hall⟩ := sources_loaded_once hparse hcatalog
  obtain ⟨r, a, hr, -, rfl, rfl, hloads⟩ := hall Target.yui .yui _ hnamed
  refine ⟨a.program, a.catalog, hparse, hcatalog, ?_, r, a, hr, hloads, ?_⟩
  · rw [hhandles, hsources]
    decide
  · have hcount := hloads.count
    rw [hsources] at hcount
    obtain ⟨first, second, third, hthree⟩ := List.length_eq_three.mp hcount
    have hplace : ∀ (i : Nat) (e : Edit) (source : String) (span : Span), a.loads[i]? = some e →
        a.program.distinctSources[i]? = some source →
        (a.program.items.find? (·.source? == some source)).map Item.span = some span →
        e.span = span := by
      intro i e source span he hsource hspan
      obtain ⟨source', key, item, hsource', -, hfound, hplace, -⟩ := hloads.source i e he
      obtain rfl : source' = source := Option.some.inj (hsource'.symm.trans hsource)
      rw [hfound] at hspan
      exact hplace.trans (Option.some.inj hspan)
    refine ⟨first, second, third, hthree, ?_, ?_, ?_⟩
    · exact hplace 0 first "b" _ (by rw [hthree]; rfl) (by rw [hsources]; rfl) hfirst
    · exact hplace 1 second "a" _ (by rw [hthree]; rfl) (by rw [hsources]; rfl) hsecond
    · exact hplace 2 third "c" _ (by rw [hthree]; rfl) (by rw [hsources]; rfl) hthird

end Transpile
end EsModules
