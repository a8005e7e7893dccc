import EsModules.Console.Session
import EsModules.Proofs.Graph.Coherence
import EsModules.Proofs.Path

/-!
# Registration names

The name of a local module is its path below the root without the extension, that of an external
module is the path it is imported by.  Two modules share a name in two cases only: their files
differ in nothing but the extension, or one of them is external and imported by the other's name.
-/

namespace EsModules

open EsModules.Path

/-- The steps of a root that stand in front of every path below it. -/
def rootSteps (root : String) : List Component :=
  if root == "" || components root == [.current] then [] else components root

/-- The path that a name is made from. -/
def relative? (root path : String) : Option String :=
  if root == "" || components root == [.current] then some path else below? root path

theorem components_of_relative?
    {root path relative : String}
    (h : relative? root path = some relative) :
    components path = rootSteps root ++ components relative := by
  unfold relative? at h
  unfold rootSteps
  split at h
  · cases h
    rename_i hroot
    rw [if_pos hroot, List.nil_append]
  · rename_i hroot
    obtain ⟨steps, hsteps, rfl⟩ := Option.map_eq_some_iff.mp h
    have hpath := eq_append_of_dropComponents hsteps
    have hwell := wellFormed_components path
    rw [hpath] at hwell
    rw [if_neg hroot, components_ofComponents hwell.of_append_right]
    exact hpath

theorem registrationName?_eq (root path : String) :
    registrationName? root path = (relative? root path).bind fun relative =>
      if ((components relative).head? == some .parent || (components relative).head? == some .root)
      then none
      else (fileStem? relative).bind fun stem => some (String.intercalate "/"
        ((components ((parent? relative).getD "")).map Component.text ++ [stem])) := by
  unfold registrationName? relative?
  by_cases hroot : (root == "" || components root == [.current]) = true
  · rw [if_pos hroot, if_pos hroot]
    rfl
  · rw [if_neg hroot, if_neg hroot]
    rfl

/-- A name consists of the steps below the root and the stem of the file. -/
theorem steps_of_registrationName?
    {root path name : String}
    (h : registrationName? root path = some name) :
    ∃ outer last,
      components path = rootSteps root ++ outer ++ [.normal last] ∧
      outer.head? ≠ some .root ∧
      name = String.intercalate "/" (outer.map Component.text ++ [(splitExtension last).1]) := by
  have hbelow : ∃ relative, relative? root path = some relative ∧
      (components relative).head? ≠ some .root ∧
      ∃ stem, fileStem? relative = some stem ∧
        name = String.intercalate "/"
          ((components ((parent? relative).getD "")).map Component.text ++ [stem]) := by
    rw [registrationName?_eq] at h
    obtain ⟨relative, hrelative, h⟩ := Option.bind_eq_some_iff.mp h
    split at h
    · cases h
    · rename_i hhead
      obtain ⟨stem, hstem, ⟨⟩⟩ := Option.bind_eq_some_iff.mp h
      refine ⟨relative, hrelative, ?_, stem, hstem, rfl⟩
      intro hroot
      simp [hroot] at hhead
  obtain ⟨relative, hpath, hroot, stem, hstem, rfl⟩ := hbelow
  obtain ⟨outer, last, hrelative, rfl⟩ := components_of_fileStem? hstem
  have hwell := wellFormed_components relative
  rw [hrelative] at hwell
  refine ⟨outer, last, ?_, ?_, ?_⟩
  · rw [components_of_relative? hpath, hrelative, List.append_assoc]
  · intro houter
    apply hroot
    rw [hrelative, List.head?_append, houter]
    rfl
  · rw [parent?_of_components hrelative, Option.getD_some,
      components_ofComponents hwell.of_append_left]

/-! ### Equal names -/

/-- Two files differ in nothing but the extension. -/
structure Siblings (first second : String) : Prop where
  parent : parent? first = parent? second
  stem : fileStem? first = fileStem? second
  extension : extension? first ≠ extension? second

section EqualNames

variable {root first second name name' : String}

/-- The pieces of a name. -/
theorem pieces_of_name
    {path last : String}
    {front outer : List Component}
    (hpath : components path = front ++ outer ++ [.normal last])
    (hroot : outer.head? ≠ some .root) :
    ∀ piece ∈ outer.map Component.text ++ [(splitExtension last).1],
      piece ≠ "" ∧ '/' ∉ piece.toList := by
  have hwell := wellFormed_components path
  rw [hpath] at hwell
  intro piece hpiece
  rcases List.mem_append.mp hpiece with hpiece | hpiece
  · obtain ⟨step, hstep, rfl⟩ := List.mem_map.mp hpiece
    exact hwell.of_append_left.of_append_right.text_piece hroot step hstep
  · rw [List.mem_singleton.mp hpiece]
    exact stem_of_inner (inner_of_components hpath)

theorem segments_of_name
    {path last : String}
    {front outer : List Component}
    (hpath : components path = front ++ outer ++ [.normal last])
    (hroot : outer.head? ≠ some .root) :
    segments (String.intercalate "/" (outer.map Component.text ++ [(splitExtension last).1])) =
      outer.map Component.text ++ [(splitExtension last).1] := by
  apply segments_intercalate
  · simp
  · intro piece hpiece
    exact (pieces_of_name hpath hroot piece hpiece).2

theorem registrationName?_eq_iff
    (hfirst : registrationName? root first = some name)
    (hsecond : registrationName? root second = some name') :
    name = name' ↔ parent? first = parent? second ∧ fileStem? first = fileStem? second := by
  obtain ⟨outer, last, hpath, hroot, rfl⟩ := steps_of_registrationName? hfirst
  obtain ⟨outer', last', hpath', hroot', rfl⟩ := steps_of_registrationName? hsecond
  rw [parent?_of_components hpath, parent?_of_components hpath', fileStem?_of_components hpath,
    fileStem?_of_components hpath', Option.some_inj, Option.some_inj]
  have hwell := wellFormed_components first
  have hwell' := wellFormed_components second
  rw [hpath] at hwell
  rw [hpath'] at hwell'
  constructor
  · intro hname
    have hsegments := congrArg segments hname
    rw [segments_of_name hpath hroot, segments_of_name hpath' hroot'] at hsegments
    obtain ⟨htexts, hstem⟩ := List.append_inj' hsegments rfl
    have houter : ofComponents outer = ofComponents outer' := by
      rw [ofComponents_eq_intercalate hroot, ofComponents_eq_intercalate hroot', htexts]
    have houter := congrArg components houter
    rw [components_ofComponents hwell.of_append_left.of_append_right,
      components_ofComponents hwell'.of_append_left.of_append_right] at houter
    exact ⟨by rw [houter], List.singleton_inj.mp hstem⟩
  · rintro ⟨hparent, hstem⟩
    have hparent := congrArg components hparent
    rw [components_ofComponents hwell.of_append_left,
      components_ofComponents hwell'.of_append_left] at hparent
    rw [List.append_cancel_left hparent, hstem]

end EqualNames

/-- An output file stands below the output directory under the name of its module. -/
theorem outputPath_eq
    {root path name : String}
    (h : registrationName? root path = some name)
    (outDir : String) :
    Console.Session.outputPath outDir name = outDir ++ separator outDir ++ name ++ ".js" := by
  obtain ⟨outer, last, hpath, hroot, rfl⟩ := steps_of_registrationName? h
  have hpieces := pieces_of_name hpath hroot
  unfold Console.Session.outputPath
  rw [segments_of_name hpath hroot]
  cases hlist : outer.map Component.text ++ [(splitExtension last).1] with
  | nil => simp at hlist
  | cons first rest =>
      rw [hlist] at hpieces
      rw [foldl_join outDir first rest hpieces]

/-! ### Modules of a graph -/

namespace Graph

variable {g : Graph} {a b : GraphModule}

/-- Two modules that get the same name: their files are siblings, or one has no file and is imported
by the name that the other's path gives. -/
def Clash (g : Graph) (a b : GraphModule) : Prop :=
  match a.path, b.path with
  | some first, some second => Siblings first second
  | some path, none => registrationName? g.root path = some b.name
  | none, some path => registrationName? g.root path = some a.name
  | none, none => False

/-- Two files that become different modules have the same name only if they are siblings. -/
theorem name_eq_iff_siblings
    {first second : String}
    (hname : registrationName? g.root first = some a.name)
    (hname' : registrationName? g.root second = some b.name)
    (hne : clean first ≠ clean second) :
    a.name = b.name ↔ Siblings first second := by
  rw [registrationName?_eq_iff hname hname']
  constructor
  · rintro ⟨hparent, hstem⟩
    refine ⟨hparent, hstem, ?_⟩
    intro hextension
    apply hne
    obtain ⟨outer, last, hpath, -, -⟩ := steps_of_registrationName? hname
    obtain ⟨outer', last', hpath', -, -⟩ := steps_of_registrationName? hname'
    have hwell := wellFormed_components first
    have hwell' := wellFormed_components second
    rw [hpath] at hwell
    rw [hpath'] at hwell'
    have hlast : last = last' := by
      rw [fileStem?_of_components hpath, fileStem?_of_components hpath', Option.some_inj] at hstem
      rw [extension?_of_components hpath, extension?_of_components hpath'] at hextension
      exact splitExtension_injective (Prod.ext hstem hextension)
    have houter : rootSteps g.root ++ outer = rootSteps g.root ++ outer' := by
      rw [parent?_of_components hpath, parent?_of_components hpath', Option.some_inj] at hparent
      have hparent := congrArg components hparent
      rw [components_ofComponents hwell.of_append_left,
        components_ofComponents hwell'.of_append_left] at hparent
      exact hparent
    apply clean_congr
    rw [hpath, hpath', houter, hlast]
  · intro h
    exact ⟨h.parent, h.stem⟩

theorem name_eq_iff_clash
    (hg : g.Coherent)
    (ha : a ∈ g.modules)
    (hb : b ∈ g.modules)
    (hne : b ≠ a) :
    b.name = a.name ↔ g.Clash a b := by
  unfold Clash
  cases (hg.genuine a ha).origin with
  | external hexternal =>
      have hnone : a.path = none := by rw [hexternal]; rfl
      cases (hg.genuine b hb).origin with
      | external hexternal' =>
          have hnone' : b.path = none := by rw [hexternal']; rfl
          rw [hnone, hnone']
          apply iff_of_false _ not_false
          intro hname
          rw [hexternal, hexternal', hname] at hne
          exact hne rfl
      | file _ hpath _ hname =>
          rw [hnone, hpath]
          show b.name = a.name ↔ registrationName? g.root _ = some a.name
          rw [hname, Option.some_inj]
  | file hexternal hpath hid hname =>
      cases (hg.genuine b hb).origin with
      | external hexternal' =>
          have hnone' : b.path = none := by rw [hexternal']; rfl
          rw [hpath, hnone']
          show b.name = a.name ↔ registrationName? g.root _ = some b.name
          rw [hname, Option.some_inj, eq_comm]
      | file hexternal' hpath' hid' hname' =>
          rw [hpath, hpath', eq_comm]
          apply name_eq_iff_siblings hname hname'
          intro hclean
          apply hne
          apply hg.eq_of_same hb ha
          rw [hid, hid', hclean]
          exact ModuleId.same_iff.mpr rfl

/-- Two modules share a name exactly if they clash, and two local ones share an output file exactly
then.  The module that is found by the name of another one is that module or clashes with it. -/
theorem name_shared_iff_clash
    (g : Graph)
    (hg : g.Reached)
    (a : GraphModule)
    (ha : a ∈ g.modules) :
    (∀ b ∈ g.modules, b ≠ a →
      (b.name = a.name ↔ g.Clash a b) ∧
      (a.external = false → b.external = false → ∀ outDir,
        (Console.Session.outputPath outDir b.name = Console.Session.outputPath outDir a.name ↔
          g.Clash a b))) ∧
    ∃ b, g.byName? a.name = some b ∧ (b = a ∨ g.Clash a b) := by
  have hcoherent := hg.coherent
  constructor
  · intro b hb hne
    have hclash := name_eq_iff_clash hcoherent ha hb hne
    refine ⟨hclash, ?_⟩
    intro hlocal hlocal' outDir
    rw [← hclash]
    cases (hcoherent.genuine a ha).origin with
    | external hexternal =>
        rw [hexternal] at hlocal
        cases hlocal
    | file _ _ _ hname =>
        cases (hcoherent.genuine b hb).origin with
        | external hexternal =>
            rw [hexternal] at hlocal'
            cases hlocal'
        | file _ _ _ hname' =>
            rw [outputPath_eq hname outDir, outputPath_eq hname' outDir]
            simp
  · cases hfound : g.byName? a.name with
    | none =>
        have hnone := List.find?_eq_none.mp hfound a ha
        simp at hnone
    | some b =>
        refine ⟨b, rfl, ?_⟩
        have hname : b.name = a.name := by
          unfold byName? at hfound
          simpa using List.find?_some hfound
        by_cases heq : b = a
        · exact .inl heq
        · have hmem := List.mem_of_find?_eq_some hfound
          exact .inr ((name_eq_iff_clash hcoherent ha hmem heq).mp hname)

/-- An entry imports two files that differ in the extension, and a module from outside by their
name. -/
def twins : Graph :=
  .empty "/p"
    (.ofTexts
      [("/p/main.js", "import './a.js';\nimport './a.mjs';\nimport 'a';\n"),
       ("/p/a.js", "export default 1;\n"), ("/p/a.mjs", "export default 2;\n")])
    (Resolver.defaults [])

theorem names_twins :
    ((after (addEntry "main") twins).modules.map fun m => (m.id.path, m.name)) =
      [("/p/main.js", "main"), ("/p/a.js", "a"), ("/p/a.mjs", "a"), ("external:a", "a")] := by
  decide +kernel

/-- One of the files clashes with the other one and with the module from outside. -/
theorem name_shared_iff_clash_twins :
    ∃ a ∈ (after (addEntry "main") twins).modules,
      a.id.path = "/p/a.js" ∧
      (∃ b ∈ (after (addEntry "main") twins).modules,
        b.id.path = "/p/a.mjs" ∧ (after (addEntry "main") twins).Clash a b) ∧
      ∃ c ∈ (after (addEntry "main") twins).modules,
        c.id.path = "external:a" ∧ (after (addEntry "main") twins).Clash a c := by
  have hmember : ∀ path name,
      (path, name) ∈ [("/p/main.js", "main"), ("/p/a.js", "a"), ("/p/a.mjs", "a"),
        ("external:a", "a")] →
      ∃ m ∈ (after (addEntry "main") twins).modules, m.id.path = path ∧ m.name = name := by
    intro path name h
    rw [← names_twins] at h
    obtain ⟨m, hm, heq⟩ := List.mem_map.mp h
    cases heq
    exact ⟨m, hm, rfl, rfl⟩
  obtain ⟨a, ha, hida, hnamea⟩ := hmember "/p/a.js" "a" (by simp)
  obtain ⟨b, hb, hidb, hnameb⟩ := hmember "/p/a.mjs" "a" (by simp)
  obtain ⟨c, hc, hidc, hnamec⟩ := hmember "external:a" "a" (by simp)
  obtain ⟨hshared, -⟩ := name_shared_iff_clash (after (addEntry "main") twins)
    ((Reached.empty _ _ _).addEntry "main") a ha
  refine ⟨a, ha, hida, ⟨b, hb, hidb, ?_⟩, c, hc, hidc, ?_⟩
  · apply (hshared b hb _).1.mp
    · rw [hnamea, hnameb]
    · rintro rfl
      simp [hida] at hidb
  · apply (hshared c hc _).1.mp
    · rw [hnamea, hnamec]
    · rintro rfl
      simp [hida] at hidc

/-- Three modules of a graph have one name. -/
theorem name_shared_twins :
    (after (addEntry "main") twins).Reached ∧
    ((after (addEntry "main") twins).modules.map fun m => (m.id.path, m.name)) =
      [("/p/main.js", "main"), ("/p/a.js", "a"), ("/p/a.mjs", "a"), ("external:a", "a")] :=
  ⟨(Reached.empty _ _ _).addEntry "main", names_twins⟩

end Graph
end EsModules
