import EsModules.Path
import Mathlib.Data.List.Basic

/-!
# Steps of paths

A path can be read back from its steps, whatever path they were taken from.  The normal form of an
absolute path has names only behind its root, and is its own normal form.
-/

namespace EsModules
namespace Path

/-! ### Segments -/

theorem splitAt_eq_splitOn (separator : Char) (cs : List Char) :
    splitAt separator cs = cs.splitOn separator := by
  induction cs with
  | nil => rfl
  | cons c cs ih =>
      have hcons : (c :: cs).splitOn separator =
          if c == separator then [] :: cs.splitOn separator
          else (cs.splitOn separator).modifyHead (List.cons c) :=
        List.splitOnP_cons_eq_if_modifyHead c cs
      rw [splitAt, ih, hcons]
      cases hcs : cs.splitOn separator with
      | nil => exact absurd hcs (List.splitOnP_ne_nil _ _)
      | cons first rest => rfl

theorem not_mem_of_mem_segments
    {path segment : String}
    (h : segment ∈ segments path) :
    '/' ∉ segment.toList := by
  have hpieces : ∀ (cs : List Char), ∀ piece ∈ splitAt '/' cs, '/' ∉ piece := by
    intro cs
    induction cs with
    | nil => simp [splitAt]
    | cons c cs ih =>
        intro piece hpiece
        rw [splitAt] at hpiece
        split at hpiece
        · rcases List.mem_cons.mp hpiece with rfl | hpiece
          · simp
          · exact ih piece hpiece
        · rename_i hc
          have hc : '/' ≠ c := by
            rintro rfl
            exact hc rfl
          split at hpiece
          · rw [List.mem_singleton.mp hpiece]
            simpa using hc
          · rename_i first rest hcs
            rw [hcs] at ih
            rcases List.mem_cons.mp hpiece with rfl | hpiece
            · exact List.not_mem_cons_of_ne_of_not_mem hc (ih first List.mem_cons_self)
            · exact ih piece (List.mem_cons_of_mem _ hpiece)
  obtain ⟨piece, hpiece, rfl⟩ := List.mem_map.mp h
  rw [String.toList_ofList]
  exact hpieces _ piece hpiece

theorem segments_intercalate
    {texts : List String}
    (hne : texts ≠ [])
    (h : ∀ text ∈ texts, '/' ∉ text.toList) :
    segments (String.intercalate "/" texts) = texts := by
  unfold segments
  rw [String.toList_intercalate, splitAt_eq_splitOn]
  have hsplit : (['/'].intercalate (texts.map String.toList)).splitOn '/' =
      texts.map String.toList :=
    List.splitOn_intercalate '/' (by simpa using h) (by simpa using hne)
  have hslash : "/".toList = ['/'] := rfl
  rw [hslash, hsplit, List.map_map]
  simp [Function.comp_def]

theorem segments_slash (path : String) : segments ("/" ++ path) = "" :: segments path := by
  unfold segments
  rw [String.toList_append]
  rfl

/-! ### Steps -/

/-- A step that a segment can stand for anywhere in a path. -/
structure Component.Inner (step : Component) : Prop where
  noSlash : '/' ∉ step.text.toList
  read : component? step.text = some step

/-- The steps of a path: the root and a dot are only at the front. -/
inductive WellFormed : List Component → Prop where
  | inner {steps : List Component} (h : ∀ step ∈ steps, step.Inner) : WellFormed steps
  | root {steps : List Component} (h : ∀ step ∈ steps, step.Inner) : WellFormed (.root :: steps)
  | current {steps : List Component} (h : ∀ step ∈ steps, step.Inner) :
      WellFormed (.current :: steps)

theorem inner_of_component?
    {segment : String}
    {step : Component}
    (hslash : '/' ∉ segment.toList)
    (h : component? segment = some step) :
    step.Inner := by
  have hread := h
  unfold component? at h
  split at h
  · cases h
  · split at h
    · cases h
      exact ⟨by decide, by decide⟩
    · cases h
      exact ⟨hslash, hread⟩

theorem wellFormed_components (path : String) : WellFormed (components path) := by
  have hinner : ∀ step ∈ (segments path).filterMap component?, step.Inner := by
    intro step hstep
    obtain ⟨segment, hsegment, hread⟩ := List.mem_filterMap.mp hstep
    exact inner_of_component? (not_mem_of_mem_segments hsegment) hread
  unfold components
  dsimp only
  split
  · exact .root hinner
  · split
    · exact .current hinner
    · exact .inner hinner

theorem head?_components (path : String) :
    (components path).head? = some .root ↔ isAbsolute path = true := by
  constructor
  · intro h
    by_contra habsolute
    have hroot : ∀ step ∈ (segments path).filterMap component?, step ≠ .root := by
      intro step hstep
      obtain ⟨segment, hsegment, hread⟩ := List.mem_filterMap.mp hstep
      have hinner := inner_of_component? (not_mem_of_mem_segments hsegment) hread
      rintro rfl
      cases hinner.read
    simp only [components, habsolute] at h
    split at h
    · contradiction
    · split at h
      · cases h
      · exact hroot .root (List.mem_of_head? h) rfl
  · intro h
    simp [components, h]

theorem WellFormed.of_append_left
    {front back : List Component}
    (h : WellFormed (front ++ back)) :
    WellFormed front := by
  cases front with
  | nil => exact .inner (by simp)
  | cons first front =>
      cases h with
      | inner h => exact .inner fun step hstep => h step (List.mem_append_left _ hstep)
      | root h => exact .root fun step hstep => h step (List.mem_append_left _ hstep)
      | current h => exact .current fun step hstep => h step (List.mem_append_left _ hstep)

theorem WellFormed.of_append_right
    {front back : List Component}
    (h : WellFormed (front ++ back)) :
    WellFormed back := by
  cases front with
  | nil => exact h
  | cons first front =>
      cases h with
      | inner h => exact .inner fun step hstep => h step (by simp [hstep])
      | root h => exact .inner fun step hstep => h step (List.mem_append_right _ hstep)
      | current h => exact .inner fun step hstep => h step (List.mem_append_right _ hstep)

section Reading

variable {steps : List Component}

theorem segments_of_inner (hne : steps ≠ []) (h : ∀ step ∈ steps, step.Inner) :
    segments (String.intercalate "/" (steps.map Component.text)) = steps.map Component.text := by
  apply segments_intercalate
  · simpa using hne
  · intro text htext
    obtain ⟨step, hstep, rfl⟩ := List.mem_map.mp htext
    exact (h step hstep).noSlash

theorem filterMap_of_inner (h : ∀ step ∈ steps, step.Inner) :
    (steps.map Component.text).filterMap component? = steps := by
  induction steps with
  | nil => rfl
  | cons step rest ih =>
      rw [List.map_cons, List.filterMap_cons, (h step List.mem_cons_self).read,
        ih fun step hstep => h step (List.mem_cons_of_mem _ hstep)]

/-- A path that starts with a text between slashes is not absolute. -/
theorem isAbsolute_append
    {first : String}
    (hne : first ≠ "")
    (hslash : '/' ∉ first.toList)
    (rest : String) :
    isAbsolute (first ++ rest) = false := by
  have hchars : first.toList ≠ [] := by simpa using hne
  obtain ⟨c, cs, hcs⟩ := List.exists_cons_of_ne_nil hchars
  have hc : c ≠ '/' := by
    rintro rfl
    simp [hcs] at hslash
  unfold isAbsolute
  rw [String.toList_append, hcs]
  simpa using hc

theorem isAbsolute_intercalate
    {first : String}
    (hne : first ≠ "")
    (hslash : '/' ∉ first.toList)
    (rest : List String) :
    isAbsolute (String.intercalate "/" (first :: rest)) = false := by
  cases rest with
  | nil =>
      rw [String.intercalate_singleton, ← String.append_empty (s := first)]
      exact isAbsolute_append hne hslash ""
  | cons second rest =>
      rw [String.intercalate_cons_cons, String.append_assoc]
      exact isAbsolute_append hne hslash _

theorem Component.Inner.text_ne {step : Component} (h : step.Inner) :
    step.text ≠ "" ∧ step.text ≠ "." := by
  have hread := h.read
  constructor
  · intro heq
    rw [heq] at hread
    cases hread
  · intro heq
    rw [heq] at hread
    cases hread

theorem Component.Inner.name_piece
    {name : String}
    (h : Component.Inner (.normal name)) :
    name ≠ "" ∧ '/' ∉ name.toList :=
  ⟨h.text_ne.1, h.noSlash⟩

/-- The steps of a path are read back from the path that they make up. -/
theorem components_ofComponents (h : WellFormed steps) :
    components (ofComponents steps) = steps := by
  cases h with
  | inner h =>
      cases steps with
      | nil => rfl
      | cons first rest =>
          have hfirst := h first List.mem_cons_self
          have hof : ofComponents (first :: rest) =
              String.intercalate "/" (List.map Component.text (first :: rest)) := by
            cases first with
            | root => cases hfirst.read
            | current => rfl
            | parent => rfl
            | normal name => rfl
          have hdot : (List.map Component.text (first :: rest)).head? ≠ some "." := by
            simpa using hfirst.text_ne.2
          rw [hof, components, segments_of_inner (by simp) h, filterMap_of_inner h,
            List.map_cons, isAbsolute_intercalate hfirst.text_ne.1 hfirst.noSlash]
          simpa using hdot
  | @root rest h =>
      have habsolute : isAbsolute (ofComponents (.root :: rest)) = true := by
        simp [isAbsolute, ofComponents, String.toList_append]
      have hsegments : (segments (ofComponents (.root :: rest))).filterMap component? = rest := by
        rw [ofComponents, segments_slash]
        cases rest with
        | nil => rfl
        | cons first rest =>
            rw [segments_of_inner (by simp) h, List.filterMap_cons]
            exact filterMap_of_inner h
      simp only [components, habsolute, hsegments, if_true]
  | @current rest h =>
      have hof : ofComponents (.current :: rest) =
          String.intercalate "/" ("." :: rest.map Component.text) := rfl
      have hsegments : segments (ofComponents (.current :: rest)) =
          "." :: rest.map Component.text := by
        rw [hof]
        apply segments_intercalate
        · simp
        · intro text htext
          rcases List.mem_cons.mp htext with rfl | htext
          · decide
          · obtain ⟨step, hstep, rfl⟩ := List.mem_map.mp htext
            exact (h step hstep).noSlash
      have habsolute : isAbsolute (ofComponents (.current :: rest)) = false := by
        rw [hof]
        exact isAbsolute_intercalate (by decide) (by decide) _
      have hread : ("." :: rest.map Component.text).filterMap component? = rest := by
        rw [List.filterMap_cons]
        exact filterMap_of_inner h
      simp only [components, habsolute, hsegments, hread]
      rfl

end Reading

theorem ofComponents_eq_intercalate
    {steps : List Component}
    (h : steps.head? ≠ some .root) :
    ofComponents steps = String.intercalate "/" (steps.map Component.text) := by
  unfold ofComponents
  split
  · exact absurd rfl h
  · rfl

theorem map_text_normal (names : List String) :
    (names.map Component.normal).map Component.text = names := by
  rw [List.map_map]
  exact List.map_id names

theorem ofComponents_normal (names : List String) :
    ofComponents (names.map .normal) = String.intercalate "/" names := by
  rw [ofComponents_eq_intercalate, map_text_normal]
  cases names <;> simp

/-- Names between slashes are read back. -/
theorem components_intercalate
    {names : List String}
    (h : ∀ name ∈ names, Component.Inner (.normal name)) :
    components (String.intercalate "/" names) = names.map .normal := by
  rw [← ofComponents_normal]
  apply components_ofComponents
  refine .inner fun step hstep => ?_
  obtain ⟨name, hname, rfl⟩ := List.mem_map.mp hstep
  exact h name hname

/-- The text of each step is a piece between slashes, apart from that of the root. -/
theorem WellFormed.text_piece
    {steps : List Component}
    (h : WellFormed steps)
    (hroot : steps.head? ≠ some .root) :
    ∀ step ∈ steps, step.text ≠ "" ∧ '/' ∉ step.text.toList := by
  cases h with
  | inner h => exact fun step hstep => ⟨(h step hstep).text_ne.1, (h step hstep).noSlash⟩
  | root h => exact absurd rfl hroot
  | current h =>
      intro step hstep
      rcases List.mem_cons.mp hstep with rfl | hstep
      · decide
      · exact ⟨(h step hstep).text_ne.1, (h step hstep).noSlash⟩

/-! ### The last step -/

theorem eq_append_of_dropComponents
    {front steps rest : List Component}
    (h : dropComponents front steps = some rest) :
    steps = front ++ rest := by
  fun_induction dropComponents front steps with
  | case1 => simpa using h
  | case2 a front b steps hab ih => rw [ih h, beq_iff_eq.mp hab, List.cons_append]
  | case3 => cases h
  | case4 => cases h

section LastStep

variable {path name : String} {outer : List Component}

theorem parent?_of_components (h : components path = outer ++ [.normal name]) :
    parent? path = some (ofComponents outer) := by
  simp [parent?, h]

theorem fileName?_of_components (h : components path = outer ++ [.normal name]) :
    fileName? path = some name := by
  simp [fileName?, h]

theorem fileStem?_of_components (h : components path = outer ++ [.normal name]) :
    fileStem? path = some (splitExtension name).1 := by
  rw [fileStem?, fileName?_of_components h, Option.map_some]

theorem extension?_of_components (h : components path = outer ++ [.normal name]) :
    extension? path = (splitExtension name).2 := by
  rw [extension?, fileName?_of_components h, Option.bind_some]

theorem inner_of_components (h : components path = outer ++ [.normal name]) :
    Component.Inner (.normal name) := by
  have hwell := wellFormed_components path
  rw [h] at hwell
  cases hwell.of_append_right with
  | inner h => exact h _ List.mem_cons_self

theorem components_of_fileStem?
    {stem : String}
    (h : fileStem? path = some stem) :
    ∃ outer last, components path = outer ++ [.normal last] ∧ stem = (splitExtension last).1 := by
  obtain ⟨last, hlast, rfl⟩ := Option.map_eq_some_iff.mp h
  unfold fileName? at hlast
  split at hlast
  · rename_i hfound
    cases hlast
    obtain ⟨outer, houter⟩ := List.getLast?_eq_some_iff.mp hfound
    exact ⟨outer, last, houter, rfl⟩
  · cases hlast

end LastStep

theorem clean_congr
    {first second : String}
    (h : components first = components second) :
    clean first = clean second := by
  unfold clean
  rw [h]

/-- A file name is cut into a stem and what is behind a dot, or not at all. -/
theorem splitExtension_cases (name : String) :
    splitExtension name = (name, none) ∨
    ∃ stem extension,
      stem ≠ "" ∧ name = stem ++ "." ++ extension ∧
      splitExtension name = (stem, some extension) := by
  have htext := List.takeWhile_append_dropWhile (p := (· != '.')) (l := name.toList.reverse)
  have hdrop :=
    calc name.toList.reverse.drop (name.toList.reverse.takeWhile (· != '.')).length
      _ = (name.toList.reverse.takeWhile (· != '.') ++
              name.toList.reverse.dropWhile (· != '.')).drop
            (name.toList.reverse.takeWhile (· != '.')).length := by rw [htext]
      _ = name.toList.reverse.dropWhile (· != '.') := List.drop_left
  unfold splitExtension
  dsimp only
  rw [hdrop]
  cases hrest : name.toList.reverse.dropWhile (· != '.') with
  | nil => exact .inl rfl
  | cons dot stem =>
      dsimp only
      split
      · exact .inl rfl
      · rename_i hstem
        right
        have hdot : dot = '.' := by
          have := List.head?_dropWhile_not (· != '.') name.toList.reverse
          simpa [hrest] using this
        refine ⟨_, _, ?_, ?_, rfl⟩
        · simpa using hstem
        · rw [hrest, hdot] at htext
          rw [← String.toList_inj, ← List.reverse_inj]
          simpa using htext.symm

/-- The stem and the extension of a file name make it up. -/
theorem splitExtension_injective : Function.Injective splitExtension := by
  intro a b hab
  rcases splitExtension_cases a with ha | ⟨stem, extension, -, ha, hcut⟩
  · rcases splitExtension_cases b with hb | ⟨stem', extension', -, hb, hcut'⟩
    · rw [ha, hb] at hab
      exact congrArg Prod.fst hab
    · rw [ha, hcut'] at hab
      cases congrArg Prod.snd hab
  · rcases splitExtension_cases b with hb | ⟨stem', extension', -, hb, hcut'⟩
    · rw [hcut, hb] at hab
      cases congrArg Prod.snd hab
    · rw [hcut, hcut'] at hab
      cases hab
      rw [ha, hb]

theorem stem_of_inner
    {name : String}
    (h : Component.Inner (.normal name)) :
    (splitExtension name).1 ≠ "" ∧ '/' ∉ (splitExtension name).1.toList := by
  rcases splitExtension_cases name with hname | ⟨stem, extension, hstem, hname, hcut⟩
  · rw [hname]
    exact h.name_piece
  · rw [hcut]
    refine ⟨hstem, ?_⟩
    intro hmem
    apply h.name_piece.2
    rw [hname]
    simp [hmem]

/-! ### Joining -/

/-- What is put between a directory and a path in it. -/
def separator (directory : String) : String :=
  if directory == "" || directory.toList.getLast? == some '/' then "" else "/"

theorem join_eq
    {directory path : String}
    (h : isAbsolute path = false) :
    join directory path = directory ++ separator directory ++ path := by
  unfold join separator
  rw [h]
  by_cases hempty : directory = ""
  · simp [hempty]
  · by_cases hlast : directory.toList.getLast? = some '/'
    · simp [hempty, hlast]
    · simp [hempty, hlast]

/-- A piece does not end in a slash, so one is put behind it. -/
theorem separator_append
    {piece : String}
    (hne : piece ≠ "")
    (hslash : '/' ∉ piece.toList)
    {front : String} :
    separator (front ++ piece) = "/" := by
  have hchars : piece.toList ≠ [] := by simpa using hne
  have hlast : piece.toList.getLast? ≠ some '/' := by
    intro hlast
    exact hslash (List.mem_of_getLast? hlast)
  simp [separator, hne, List.getLast?_append_of_ne_nil _ hchars, hlast]

/-- Joined one after the other, the pieces of a name stand behind the directory as they are. -/
theorem foldl_join
    (directory first : String)
    (rest : List String)
    (h : ∀ text ∈ first :: rest, text ≠ "" ∧ '/' ∉ text.toList) :
    (first :: rest).foldl join directory =
      directory ++ separator directory ++ String.intercalate "/" (first :: rest) := by
  induction rest generalizing directory first with
  | nil =>
      obtain ⟨hne, hslash⟩ := h first List.mem_cons_self
      have habsolute := isAbsolute_intercalate hne hslash []
      rw [String.intercalate_singleton] at habsolute ⊢
      rw [List.foldl_cons, List.foldl_nil, join_eq habsolute]
  | cons second rest ih =>
      obtain ⟨hne, hslash⟩ := h first List.mem_cons_self
      have habsolute := isAbsolute_intercalate hne hslash []
      rw [String.intercalate_singleton] at habsolute
      rw [List.foldl_cons, ih (join directory first) second
        (fun text htext => h text (List.mem_cons_of_mem _ htext)), join_eq habsolute,
        separator_append hne hslash, String.intercalate_cons_cons]
      simp only [String.append_assoc]

/-! ### Normal forms of absolute paths -/

/-- An absolute path in normal form: names only behind its root. -/
def Canonical (path : String) : Prop :=
  ∃ names : List String,
    (∀ name ∈ names, Component.Inner (.normal name)) ∧
    path = ofComponents (.root :: names.map .normal)

section Normal

variable {path : String} {names : List String}

theorem components_of_names (h : ∀ name ∈ names, Component.Inner (.normal name)) :
    components (ofComponents (.root :: names.map .normal)) = .root :: names.map .normal := by
  apply components_ofComponents
  apply WellFormed.root
  intro step hstep
  obtain ⟨name, hname, rfl⟩ := List.mem_map.mp hstep
  exact h name hname

theorem foldl_pushStep_names (names : List String) (steps : List Component) :
    (names.map Component.normal).foldl pushStep steps =
      (names.map Component.normal).reverse ++ steps := by
  induction names generalizing steps with
  | nil => rfl
  | cons name names ih =>
      rw [List.map_cons, List.foldl_cons, ih]
      simp [pushStep]

theorem Canonical.clean_eq (h : Canonical path) : clean path = path := by
  obtain ⟨names, hnames, rfl⟩ := h
  unfold clean normalize
  rw [components_of_names hnames, List.foldl_cons, foldl_pushStep_names]
  simp [pushStep]

theorem Canonical.eq_of_components
    {other : String}
    (h : Canonical path)
    (hother : Canonical other)
    (heq : components path = components other) :
    path = other := by
  rw [← h.clean_eq, ← hother.clean_eq]
  exact clean_congr heq

theorem Canonical.isAbsolute (h : Canonical path) : isAbsolute path = true := by
  obtain ⟨names, -, rfl⟩ := h
  simp [Path.isAbsolute, ofComponents, String.toList_append]

/-- Inner steps pushed on names behind a root give names behind a root. -/
theorem foldl_pushStep_inner
    (steps : List Component)
    (hsteps : ∀ step ∈ steps, step.Inner)
    (names : List String)
    (hnames : ∀ name ∈ names, Component.Inner (.normal name)) :
    ∃ names' : List String,
      (∀ name ∈ names', Component.Inner (.normal name)) ∧
      steps.foldl pushStep (names.map .normal ++ [.root]) = names'.map .normal ++ [.root] := by
  induction steps generalizing names with
  | nil => exact ⟨names, hnames, rfl⟩
  | cons step steps ih =>
      have hstep := hsteps step List.mem_cons_self
      have hrest := fun step hstep => hsteps step (List.mem_cons_of_mem _ hstep)
      rw [List.foldl_cons]
      cases step with
      | root => cases hstep.read
      | current => cases hstep.read
      | normal name =>
          apply ih hrest (name :: names)
          intro other hother
          rcases List.mem_cons.mp hother with rfl | hother
          · exact hstep
          · exact hnames other hother
      | parent =>
          cases names with
          | nil => exact ih hrest [] hnames
          | cons name names =>
              apply ih hrest names
              intro other hother
              exact hnames other (List.mem_cons_of_mem _ hother)

theorem canonical_clean (h : isAbsolute path = true) : Canonical (clean path) := by
  obtain ⟨steps, hpath, hsteps⟩ : ∃ steps, components path = .root :: steps ∧
      ∀ step ∈ steps, step.Inner := by
    have hroot := (head?_components path).mpr h
    cases hcomponents : components path with
    | nil => simp [hcomponents] at hroot
    | cons first steps =>
        have hwell := wellFormed_components path
        rw [hcomponents] at hwell hroot
        cases hroot
        cases hwell with
        | inner hinner => cases (hinner .root List.mem_cons_self).read
        | root hinner => exact ⟨steps, rfl, hinner⟩
  obtain ⟨names, hnames, hfold⟩ := foldl_pushStep_inner steps hsteps [] (by simp)
  refine ⟨names.reverse, ?_, ?_⟩
  · intro name hname
    exact hnames name (List.mem_reverse.mp hname)
  · have hnormal : normalize (components path) = .root :: names.reverse.map .normal := by
      unfold normalize
      rw [hpath, List.foldl_cons]
      have hfold : steps.foldl pushStep (pushStep [] .root) = names.map .normal ++ [.root] := hfold
      rw [hfold]
      simp
    unfold clean
    rw [hnormal]

end Normal

theorem isAbsolute_join
    {directory : String}
    (h : isAbsolute directory = true)
    (path : String) :
    isAbsolute (join directory path) = true := by
  cases hpath : isAbsolute path with
  | true =>
      unfold join
      rw [if_pos hpath]
      exact hpath
  | false =>
      rw [join_eq hpath]
      unfold isAbsolute at h ⊢
      rw [beq_iff_eq] at h ⊢
      rw [String.toList_append, String.toList_append, List.head?_append, List.head?_append, h]
      rfl

/-- A text without slashes that is not made of dots only is a name. -/
theorem inner_normal
    {text : String}
    (hslash : '/' ∉ text.toList)
    (hchar : ∃ c ∈ text.toList, c ≠ '.') :
    Component.Inner (.normal text) := by
  obtain ⟨c, hc, hdot⟩ := hchar
  refine ⟨hslash, ?_⟩
  have hne : ∀ dots : String, (∀ d ∈ dots.toList, d = '.') → text ≠ dots := by
    rintro dots hdots rfl
    exact hdot (hdots c hc)
  show component? text = some (.normal text)
  unfold component?
  simp [hne "" (by simp), hne "." (by simp), hne ".." (by simp)]

section Canonical

variable {path : String}

theorem Canonical.parent?
    {directory : String}
    (h : Canonical path)
    (hparent : Path.parent? path = some directory) :
    Canonical directory := by
  obtain ⟨names, hnames, rfl⟩ := h
  have hcomponents := components_of_names hnames
  rcases List.eq_nil_or_concat' names with rfl | ⟨init, last, rfl⟩
  · unfold Path.parent? at hparent
    rw [hcomponents] at hparent
    cases hparent
  · rw [List.map_append, ← List.cons_append] at hcomponents hparent
    rw [parent?_of_components hcomponents] at hparent
    cases hparent
    exact ⟨init, fun name hname => hnames name (List.mem_append_left _ hname), rfl⟩

theorem ofComponents_names (names : List String) :
    ofComponents (.root :: names.map .normal) = "/" ++ String.intercalate "/" names := by
  show "/" ++ String.intercalate "/" ((names.map Component.normal).map Component.text) = _
  rw [map_text_normal]

/-- A name behind a path in normal form. -/
theorem Canonical.join
    {name : String}
    (h : Canonical path)
    (hname : Component.Inner (.normal name)) :
    Canonical (Path.join path name) := by
  obtain ⟨names, hnames, rfl⟩ := h
  have habsolute : Path.isAbsolute name = false := by
    simpa using isAbsolute_append hname.name_piece.1 hname.name_piece.2 ""
  refine ⟨names ++ [name], ?_, ?_⟩
  · intro other hother
    rcases List.mem_append.mp hother with hother | hother
    · exact hnames other hother
    · rw [List.mem_singleton.mp hother]
      exact hname
  · rw [join_eq habsolute, ofComponents_names, ofComponents_names]
    rcases List.eq_nil_or_concat' names with rfl | ⟨init, last, rfl⟩
    · simp [separator]
    · have hlast := hnames last (by simp)
      obtain ⟨front, hfront⟩ : ∃ front,
          "/" ++ String.intercalate "/" (init ++ [last]) = front ++ last := by
        cases init with
        | nil => exact ⟨"/", by simp⟩
        | cons first init =>
            rw [String.intercalate_append_of_ne_nil (by simp) (by simp),
              String.intercalate_singleton, ← String.append_assoc]
            exact ⟨_, rfl⟩
      rw [String.intercalate_append_of_ne_nil (l := init ++ [last]) (by simp) (by simp),
        String.intercalate_singleton, ← String.append_assoc, ← String.append_assoc, hfront,
        separator_append hlast.name_piece.1 hlast.name_piece.2]

/-- A text behind the last name of a path in normal form. -/
theorem Canonical.append
    {text : String}
    (h : Canonical path)
    (hslash : '/' ∉ text.toList)
    (hchar : ∃ c ∈ text.toList, c ≠ '.') :
    Canonical (path ++ text) := by
  obtain ⟨names, hnames, rfl⟩ := h
  rcases List.eq_nil_or_concat' names with rfl | ⟨init, last, rfl⟩
  · refine ⟨[text], ?_, ?_⟩
    · intro other hother
      rw [List.mem_singleton.mp hother]
      exact inner_normal hslash hchar
    · rw [ofComponents_names, ofComponents_names]
      simp
  · obtain ⟨c, hc, hdot⟩ := hchar
    refine ⟨init ++ [last ++ text], ?_, ?_⟩
    · intro other hother
      rcases List.mem_append.mp hother with hother | hother
      · exact hnames other (List.mem_append_left _ hother)
      · rw [List.mem_singleton.mp hother]
        have hlast := (hnames last (by simp)).name_piece.2
        apply inner_normal
        · simpa [hslash] using hlast
        · exact ⟨c, by simp [hc], hdot⟩
    · rw [ofComponents_names, ofComponents_names]
      cases init with
      | nil => simp [String.append_assoc]
      | cons first init =>
          rw [String.intercalate_append_of_ne_nil (by simp) (by simp),
            String.intercalate_append_of_ne_nil (by simp) (by simp)]
          simp [String.append_assoc]

end Canonical

end Path
end EsModules
