import EsModules.Proofs.Path
import Mathlib.Data.List.Induction

/-!
# Normal forms of paths

The normal form of a path is what a walk along its steps arrives at: a step to the parent takes
back the last name, and means nothing at the root.  A walk along the normal form arrives at the
same place, so it does not matter whether a path is cleaned before it is joined to a directory or
behind it.  The normal form has names only behind the root, or behind steps to the parent.
-/

namespace EsModules
namespace Path

/-! ### Walks -/

/-- What one step does to a place that was reached by a walk, it does to the walk. -/
theorem foldl_reverse_pushStep (taken stack : List Component) (step : Component) :
    (pushStep taken step).reverse.foldl pushStep stack =
      pushStep (taken.reverse.foldl pushStep stack) step := by
  have hpush : ∀ other : Component, (other :: taken).reverse.foldl pushStep stack =
      pushStep (taken.reverse.foldl pushStep stack) other := by
    intro other
    rw [List.reverse_cons, List.foldl_append]
    rfl
  cases step with
  | root => exact hpush .root
  | current => rfl
  | normal name => exact hpush (.normal name)
  | parent =>
      cases taken with
      | nil => rfl
      | cons last outer =>
          cases last with
          | current => exact hpush .parent
          | parent => exact hpush .parent
          | root => simp [pushStep]
          | normal name => simp [pushStep]

/-- A walk along the normal form of some steps arrives where a walk along the steps does. -/
theorem foldl_pushStep_normalize (steps stack : List Component) :
    (normalize steps).foldl pushStep stack = steps.foldl pushStep stack := by
  unfold normalize
  induction steps using List.reverseRecOn with
  | nil => rfl
  | append_singleton steps step ih =>
      rw [List.foldl_append, List.foldl_append, List.foldl_cons, List.foldl_nil, List.foldl_cons,
        List.foldl_nil, foldl_reverse_pushStep, ih]

theorem normalize_append (front back : List Component) :
    normalize (front ++ back) = (back.foldl pushStep (front.foldl pushStep [])).reverse := by
  rw [normalize, List.foldl_append]

theorem normalize_append_normal (front : List Component) (name : String) :
    normalize (front ++ [.normal name]) = normalize front ++ [.normal name] := by
  rw [normalize_append]
  exact List.reverse_cons

theorem mem_of_mem_pushStep
    {stack : List Component}
    {step other : Component}
    (h : other ∈ pushStep stack step) :
    other ∈ stack ∨ other = step := by
  cases step with
  | root => exact (List.mem_cons.mp h).symm
  | current => exact .inl h
  | normal name => exact (List.mem_cons.mp h).symm
  | parent =>
      cases stack with
      | nil => exact (List.mem_cons.mp h).symm
      | cons last outer =>
          cases last with
          | root => exact .inl h
          | current => exact (List.mem_cons.mp h).symm
          | parent => exact (List.mem_cons.mp h).symm
          | normal name => exact .inl (List.mem_cons_of_mem _ h)

/-- A walk adds nothing but its steps. -/
theorem mem_of_mem_foldl_pushStep
    {steps stack : List Component}
    {step : Component}
    (h : step ∈ steps.foldl pushStep stack) :
    step ∈ stack ∨ step ∈ steps := by
  induction steps generalizing stack with
  | nil => exact .inl h
  | cons first rest ih =>
      rcases ih h with hstack | hrest
      · rcases mem_of_mem_pushStep hstack with hstack | rfl
        · exact .inl hstack
        · exact .inr List.mem_cons_self
      · exact .inr (List.mem_cons_of_mem _ hrest)

theorem mem_of_mem_normalize
    {steps : List Component}
    {step : Component}
    (h : step ∈ normalize steps) :
    step ∈ steps := by
  rcases mem_of_mem_foldl_pushStep (List.mem_reverse.mp h) with hnone | hsteps
  · cases hnone
  · exact hsteps

/-! ### Steps in normal form -/

/-- Names behind the root, or behind steps to the parent. -/
inductive Normal : List Component → Prop where
  | absolute
      {names : List String}
      (h : ∀ name ∈ names, Component.Inner (.normal name)) :
      Normal (.root :: names.map .normal)
  | relative
      (ups : Nat)
      {names : List String}
      (h : ∀ name ∈ names, Component.Inner (.normal name)) :
      Normal (List.replicate ups .parent ++ names.map .normal)

theorem foldl_pushStep_parents
    (steps : List Component)
    (hsteps : ∀ step ∈ steps, step.Inner)
    (ups : Nat)
    (names : List String)
    (hnames : ∀ name ∈ names, Component.Inner (.normal name)) :
    ∃ (ups' : Nat) (names' : List String),
      (∀ name ∈ names', Component.Inner (.normal name)) ∧
      steps.foldl pushStep (names.map .normal ++ List.replicate ups .parent) =
        names'.map .normal ++ List.replicate ups' .parent := by
  induction steps generalizing ups names with
  | nil => exact ⟨ups, names, hnames, rfl⟩
  | cons step steps ih =>
      have hstep := hsteps step List.mem_cons_self
      have hrest := fun step hstep => hsteps step (List.mem_cons_of_mem _ hstep)
      rw [List.foldl_cons]
      cases step with
      | root => cases hstep.read
      | current => cases hstep.read
      | normal name => exact ih hrest ups (name :: names) (List.forall_mem_cons.mpr ⟨hstep, hnames⟩)
      | parent =>
          cases names with
          | cons name names => exact ih hrest ups names (List.forall_mem_cons.mp hnames).2
          | nil =>
              have hup : pushStep (List.replicate ups .parent) .parent =
                  List.replicate (ups + 1) .parent := by
                cases ups <;> rfl
              have hup' := ih hrest (ups + 1) [] hnames
              rw [List.map_nil, List.nil_append, ← hup] at hup'
              exact hup'

theorem normal_normalize {steps : List Component} (h : WellFormed steps) :
    Normal (normalize steps) := by
  have hrelative : ∀ inner : List Component, (∀ step ∈ inner, step.Inner) →
      Normal (normalize inner) := by
    intro inner hinner
    obtain ⟨ups, names, hnames, hfold⟩ := foldl_pushStep_parents inner hinner 0 [] (by simp)
    have hnormal : normalize inner = List.replicate ups .parent ++ names.reverse.map .normal := by
      unfold normalize
      have hfold : inner.foldl pushStep [] = _ := hfold
      rw [hfold]
      simp
    rw [hnormal]
    exact .relative ups (by simpa using hnames)
  cases h with
  | inner hinner => exact hrelative _ hinner
  | @current rest hrest => exact hrelative rest hrest
  | @root inner hinner =>
      obtain ⟨names, hnames, hfold⟩ := foldl_pushStep_inner inner hinner [] (by simp)
      have hnormal : normalize (.root :: inner) = .root :: names.reverse.map .normal := by
        have hfold : inner.foldl pushStep [.root] = _ := hfold
        show (inner.foldl pushStep [.root]).reverse = _
        rw [hfold]
        simp
      rw [hnormal]
      exact .absolute (by simpa using hnames)

namespace Normal

variable {steps : List Component}

theorem wellFormed (h : Normal steps) : WellFormed steps := by
  have hinner : ∀ names : List String, (∀ name ∈ names, Component.Inner (.normal name)) →
      ∀ step ∈ names.map Component.normal, step.Inner := by
    intro names hnames step hstep
    obtain ⟨name, hname, rfl⟩ := List.mem_map.mp hstep
    exact hnames name hname
  cases h with
  | absolute hnames => exact .root (hinner _ hnames)
  | relative ups hnames =>
      apply WellFormed.inner
      intro step hstep
      rcases List.mem_append.mp hstep with hstep | hstep
      · rw [List.eq_of_mem_replicate hstep]
        exact ⟨by decide, by decide⟩
      · exact hinner _ hnames step hstep

theorem normalize_eq (h : Normal steps) : normalize steps = steps := by
  have hups : ∀ ups : Nat, (List.replicate ups Component.parent).foldl pushStep [] =
      List.replicate ups .parent := by
    intro ups
    induction ups with
    | zero => rfl
    | succ ups ih =>
        rw [List.replicate_succ', List.foldl_append, ih, ← List.replicate_succ']
        cases ups <;> rfl
  cases h with
  | @absolute names hnames =>
      unfold normalize
      rw [List.foldl_cons, foldl_pushStep_names]
      simp [pushStep]
  | @relative ups names hnames =>
      unfold normalize
      rw [List.foldl_append, hups, foldl_pushStep_names]
      simp

theorem current_not_mem (h : Normal steps) : .current ∉ steps := by
  cases h with
  | absolute hnames => simp
  | relative ups hnames => simp

theorem nil : Normal [] :=
  @relative 0 [] (by simp)

/-- Without its last step, which is an inner one or the root itself, a normal form is one. -/
theorem of_concat {last : Component} (h : Normal (steps ++ [last])) :
    Normal steps ∧ (last.Inner ∨ steps = [] ∧ last = .root) := by
  have hsplit : ∀ {front : List Component} {other : Component},
      steps ++ [last] = front ++ [other] → Normal front → other.Inner →
      Normal steps ∧ (last.Inner ∨ steps = [] ∧ last = .root) := by
    intro front other heq hfront hother
    obtain ⟨rfl, hlast⟩ := List.append_inj' heq rfl
    cases hlast
    exact ⟨hfront, .inl hother⟩
  generalize hwhole : steps ++ [last] = whole at h hsplit
  cases h with
  | @absolute names hnames =>
      rcases List.eq_nil_or_concat' names with rfl | ⟨front, back, rfl⟩
      · obtain ⟨rfl, hlast⟩ := List.append_eq_singleton_iff.mp hwhole |>.resolve_right (by simp)
        exact ⟨.nil, .inr ⟨rfl, by simpa using hlast⟩⟩
      · obtain ⟨hfront, hback⟩ := List.forall_mem_append.mp hnames
        exact hsplit (by simp) (.absolute hfront) (hback back List.mem_cons_self)
  | @relative ups names hnames =>
      rcases List.eq_nil_or_concat' names with rfl | ⟨front, back, rfl⟩
      · cases ups with
        | zero => simp at hwhole
        | succ ups =>
            have hup : Component.Inner .parent := ⟨by decide, by decide⟩
            exact hsplit (by simp [List.replicate_succ']) (.relative ups hnames) hup
      · obtain ⟨hfront, hback⟩ := List.forall_mem_append.mp hnames
        exact hsplit (by simp) (.relative ups hfront) (hback back List.mem_cons_self)

theorem concat {name : String} (h : Normal steps) (hname : Component.Inner (.normal name)) :
    Normal (steps ++ [.normal name]) := by
  cases h with
  | @absolute names hnames =>
      have hlist : .root :: names.map Component.normal ++ [.normal name] =
          .root :: (names ++ [name]).map .normal := by simp
      rw [hlist]
      exact .absolute (List.forall_mem_append.mpr ⟨hnames, List.forall_mem_singleton.mpr hname⟩)
  | @relative ups names hnames =>
      have hlist : List.replicate ups Component.parent ++ names.map .normal ++ [.normal name] =
          List.replicate ups .parent ++ (names ++ [name]).map .normal := by simp
      rw [hlist]
      exact .relative ups (List.forall_mem_append.mpr ⟨hnames, List.forall_mem_singleton.mpr hname⟩)

end Normal

/-! ### Clean paths -/

section Clean

variable {path : String}

theorem clean_of_normalize_nil (h : normalize (components path) = []) : clean path = "." := by
  rw [clean, h]

theorem clean_of_normalize (h : normalize (components path) ≠ []) :
    clean path = ofComponents (normalize (components path)) := by
  unfold clean
  split
  · contradiction
  · rfl

theorem components_clean (h : normalize (components path) ≠ []) :
    components (clean path) = normalize (components path) := by
  rw [clean_of_normalize h]
  exact components_ofComponents (normal_normalize (wellFormed_components path)).wellFormed

/-- A walk along a path arrives where a walk along the clean path does. -/
theorem foldl_pushStep_clean (path : String) (stack : List Component) :
    (components (clean path)).foldl pushStep stack = (components path).foldl pushStep stack := by
  rw [← foldl_pushStep_normalize (components path)]
  by_cases hnil : normalize (components path) = []
  · rw [clean_of_normalize_nil hnil, hnil]
    rfl
  · rw [components_clean hnil]

theorem normalize_components_clean (path : String) :
    normalize (components (clean path)) = normalize (components path) := by
  unfold normalize
  rw [foldl_pushStep_clean]

theorem clean_eq_clean_iff {first second : String} :
    clean first = clean second ↔
      normalize (components first) = normalize (components second) := by
  constructor
  · intro h
    rw [← normalize_components_clean first, h, normalize_components_clean]
  · intro h
    unfold clean
    rw [h]

theorem clean_clean (path : String) : clean (clean path) = clean path :=
  clean_eq_clean_iff.mpr (normalize_components_clean path)

theorem clean_ofComponents
    {steps : List Component}
    (h : Normal steps)
    (hne : steps ≠ []) :
    clean (ofComponents steps) = ofComponents steps := by
  have hsteps : normalize (components (ofComponents steps)) = steps := by
    rw [components_ofComponents h.wellFormed, h.normalize_eq]
  rw [clean_of_normalize (by rwa [hsteps]), hsteps]

end Clean

/-! ### Joined paths -/

/-- A path is made up of its segments. -/
theorem intercalate_segments (path : String) : String.intercalate "/" (segments path) = path := by
  rw [← String.toList_inj, String.toList_intercalate, segments, splitAt_eq_splitOn]
  have hslash : "/".toList = ['/'] := rfl
  simp only [List.map_map, Function.comp_def, String.toList_ofList, List.map_id', hslash]
  exact List.intercalate_splitOn '/'

/-- What has no separator is the front of the first piece. -/
theorem splitAt_append_of_not_mem
    {separator : Char}
    {front : List Char}
    (h : separator ∉ front)
    (back : List Char) :
    ∃ first rest,
      splitAt separator back = first :: rest ∧
      splitAt separator (front ++ back) = (front ++ first) :: rest := by
  induction front with
  | nil =>
      cases hback : splitAt separator back with
      | nil =>
          rw [splitAt_eq_splitOn] at hback
          exact absurd hback (List.splitOnP_ne_nil _ _)
      | cons first rest => exact ⟨first, rest, rfl, hback⟩
  | cons c front ih =>
      obtain ⟨first, rest, hback, hsplit⟩ := ih (List.not_mem_of_not_mem_cons h)
      refine ⟨first, rest, hback, ?_⟩
      have hne : (c == separator) = false := by
        simpa using (List.ne_of_not_mem_cons h).symm
      simp only [List.cons_append, splitAt, hsplit, hne]
      rfl

theorem segments_append_slash (front back : String) :
    segments (front ++ "/" ++ back) = segments front ++ segments back := by
  unfold segments
  rw [splitAt_eq_splitOn, splitAt_eq_splitOn, splitAt_eq_splitOn, ← List.map_append,
    ← List.splitOn_append_cons_self]
  simp

/-- The segments of a path in a directory, apart from an empty one between them. -/
theorem segments_join
    {directory path : String}
    (hne : directory ≠ "")
    (hpath : isAbsolute path = false) :
    ∃ front,
      segments (join directory path) = segments front ++ segments path ∧
      (segments directory = segments front ∨ segments directory = segments front ++ [""]) := by
  rw [join_eq hpath]
  by_cases hslash : directory.toList.getLast? = some '/'
  · obtain ⟨front, hfront⟩ := List.getLast?_eq_some_iff.mp hslash
    have hdirectory : directory = String.ofList front ++ "/" ++ "" := by
      rw [← String.toList_inj, hfront]
      simp
    refine ⟨String.ofList front, ?_, .inr ?_⟩
    · have hnothing : separator directory = "" := by simp [separator, hslash]
      rw [hnothing, hdirectory, String.append_empty, String.append_empty, segments_append_slash]
    · rw [hdirectory, segments_append_slash]
      rfl
  · have hbetween : separator directory = "/" := by simp [separator, hne, hslash]
    refine ⟨directory, ?_, .inl rfl⟩
    rw [hbetween, segments_append_slash]

theorem segments_ne_nil (path : String) : segments path ≠ [] := by
  unfold segments
  rw [splitAt_eq_splitOn]
  simp

/-- The steps of a relative path behind a directory. -/
theorem components_join
    {directory path : String}
    (hne : directory ≠ "")
    (hpath : isAbsolute path = false) :
    components (join directory path) =
      components directory ++ (segments path).filterMap component? := by
  obtain ⟨front, hjoin, hdirectory⟩ := segments_join hne hpath
  have habsolute : isAbsolute (join directory path) = isAbsolute directory := by
    have hchars : directory.toList ≠ [] := by simpa using hne
    obtain ⟨c, cs, hcs⟩ := List.exists_cons_of_ne_nil hchars
    rw [join_eq hpath]
    simp [isAbsolute, hcs]
  have hhead : (segments (join directory path)).head? = (segments directory).head? := by
    rw [hjoin, List.head?_append_of_ne_nil _ (segments_ne_nil front)]
    rcases hdirectory with h | h
    · rw [h]
    · rw [h, List.head?_append_of_ne_nil _ (segments_ne_nil front)]
  have hsteps : (segments (join directory path)).filterMap component? =
      (segments directory).filterMap component? ++ (segments path).filterMap component? := by
    rw [hjoin, List.filterMap_append]
    rcases hdirectory with h | h
    · rw [h]
    · rw [h, List.filterMap_append, List.append_assoc]
      rfl
  unfold components
  dsimp only
  rw [habsolute, hhead, hsteps]
  split
  · rfl
  · split
    · rfl
    · rfl

theorem foldl_pushStep_relative
    {path : String}
    (hpath : isAbsolute path = false)
    (stack : List Component) :
    (components path).foldl pushStep stack =
      ((segments path).filterMap component?).foldl pushStep stack := by
  unfold components
  dsimp only
  rw [hpath]
  split
  · contradiction
  · split
    · rfl
    · rfl

/-- To walk along a path that is joined to a directory is to walk to the directory first. -/
theorem foldl_pushStep_join
    {path : String}
    (hpath : isAbsolute path = false)
    (directory : String)
    (stack : List Component) :
    (components (join directory path)).foldl pushStep stack =
      (components path).foldl pushStep ((components directory).foldl pushStep stack) := by
  by_cases hempty : directory = ""
  · have hjoin : join "" path = path := by
      rw [join_eq hpath]
      exact String.empty_append
    rw [hempty, hjoin]
    rfl
  · rw [components_join hempty hpath, List.foldl_append, foldl_pushStep_relative hpath]

theorem normalize_join
    {path : String}
    (hpath : isAbsolute path = false)
    (directory : String) :
    normalize (components (join directory path)) =
      normalize (components directory ++ components path) := by
  rw [normalize_append, ← foldl_pushStep_join hpath]
  rfl

theorem isAbsolute_of_root_mem {path : String} (h : .root ∈ components path) :
    isAbsolute path = true := by
  rw [← head?_components]
  have hwell := wellFormed_components path
  generalize components path = steps at h hwell
  cases hwell with
  | inner hinner => cases (hinner .root h).read
  | root => rfl
  | current hinner =>
      rcases List.mem_cons.mp h with hroot | hroot
      · cases hroot
      · cases (hinner .root hroot).read

theorem isAbsolute_clean (path : String) : isAbsolute (clean path) = isAbsolute path := by
  cases hpath : isAbsolute path with
  | true => exact (canonical_clean hpath).isAbsolute
  | false =>
      by_contra habsolute
      have hroot := List.mem_of_head? ((head?_components _).mpr (by simpa using habsolute))
      by_cases hnil : normalize (components path) = []
      · rw [clean_of_normalize_nil hnil] at hroot
        revert hroot
        decide
      · rw [components_clean hnil] at hroot
        rw [isAbsolute_of_root_mem (mem_of_mem_normalize hroot)] at hpath
        cases hpath

/-- A path may be cleaned before it is joined to a directory. -/
theorem clean_join_clean (directory path : String) :
    clean (join directory (clean path)) = clean (join directory path) := by
  rw [clean_eq_clean_iff]
  cases hpath : isAbsolute path with
  | true =>
      have hclean : isAbsolute (clean path) = true := by rw [isAbsolute_clean, hpath]
      unfold join
      rw [if_pos hpath, if_pos hclean, normalize_components_clean]
  | false =>
      have hclean : isAbsolute (clean path) = false := by rw [isAbsolute_clean, hpath]
      rw [normalize_join hpath, normalize_join hclean, normalize_append, normalize_append,
        foldl_pushStep_clean]

/-! ### Texts behind clean paths -/

theorem intercalate_append_text (texts : List String) (last text : String) :
    String.intercalate "/" (texts ++ [last]) ++ text =
      String.intercalate "/" (texts ++ [last ++ text]) := by
  cases texts with
  | nil => simp
  | cons first rest =>
      rw [String.intercalate_append_of_ne_nil (by simp) (by simp),
        String.intercalate_append_of_ne_nil (by simp) (by simp)]
      simp [String.append_assoc]

/-- A text behind the last step of a path becomes a part of it. -/
theorem ofComponents_append_text
    {front : List Component}
    {last : Component}
    (hlast : last ≠ .root)
    (text : String) :
    ofComponents (front ++ [last]) ++ text =
      ofComponents (front ++ [.normal (last.text ++ text)]) := by
  have hrelative : ∀ steps : List Component,
      String.intercalate "/" ((steps ++ [last]).map Component.text) ++ text =
        String.intercalate "/"
          ((steps ++ [Component.normal (last.text ++ text)]).map Component.text) := by
    intro steps
    rw [List.map_append, List.map_append]
    exact intercalate_append_text _ _ _
  by_cases hroot : front.head? = some .root
  · obtain ⟨rest, rfl⟩ := List.head?_eq_some_iff.mp hroot
    have hrest := congrArg ("/" ++ ·) (hrelative rest)
    simp only [← String.append_assoc] at hrest
    exact hrest
  · have hhead : ∀ step : Component, step ≠ .root →
        (front ++ [step]).head? ≠ some .root := by
      intro step hstep
      cases front with
      | nil => simpa using hstep
      | cons first rest => simpa using hroot
    rw [ofComponents_eq_intercalate (hhead last hlast), hrelative,
      ofComponents_eq_intercalate (hhead _ (by simp))]

/-- A text without slashes behind a clean path does not change what is before it, unless it
consists of dots. -/
theorem clean_append_text
    {text : String}
    (path : String)
    (hslash : '/' ∉ text.toList)
    (hchar : ∃ c ∈ text.toList, c ≠ '.') :
    clean (clean path ++ text) = clean path ++ text := by
  have hlonger : ∀ (front : List Component) (last : Component),
      Normal front → last ≠ .root → '/' ∉ last.text.toList →
      clean (ofComponents (front ++ [last]) ++ text) = ofComponents (front ++ [last]) ++ text := by
    intro front last hfront hlast hlastSlash
    obtain ⟨c, hc, hdot⟩ := hchar
    rw [ofComponents_append_text hlast]
    apply clean_ofComponents _ (by simp)
    apply hfront.concat
    apply inner_normal
    · simp [hlastSlash, hslash]
    · exact ⟨c, by simp [hc], hdot⟩
  by_cases hnil : normalize (components path) = []
  · rw [clean_of_normalize_nil hnil]
    exact hlonger [] .current .nil (by simp) (by decide)
  · have hnormal := normal_normalize (wellFormed_components path)
    rw [clean_of_normalize hnil]
    obtain ⟨front, last, hsteps⟩ := (List.eq_nil_or_concat' _).resolve_left hnil
    rw [hsteps] at hnormal ⊢
    obtain ⟨hfront, hlast | ⟨rfl, rfl⟩⟩ := hnormal.of_concat
    · refine hlonger front last hfront ?_ hlast.noSlash
      rintro rfl
      cases hlast.read
    · -- the text is the only name behind the root
      have hroot : ofComponents ([] ++ [.root]) ++ text =
          ofComponents (.root :: [text].map .normal) := by
        rw [ofComponents_names]
        simp [ofComponents]
      rw [hroot]
      apply clean_ofComponents _ (by simp)
      exact .absolute (List.forall_mem_singleton.mpr (inner_normal hslash hchar))

end Path
end EsModules
