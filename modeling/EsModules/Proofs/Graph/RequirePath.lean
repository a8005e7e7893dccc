import EsModules.Graph.RequirePath
import EsModules.Proofs.Path.Walk

/-!
# Paths between output files

The path from one output file to another goes up from the directory of the first to the part that
both names share, and from there down to the second (`exists_requireParts`).  So it leads to the
second file and never leaves the output directory (`relativeRequire_leads`).

Whether the path is a relative specifier is another matter.  It is left without a dot in front if
its text begins with two dots, and this is not only the case where it goes up: a file or directory
may have a name that begins so (`isRelative_relativeRequire_iff`).
-/

namespace EsModules

open Path

/-! ### The parts of a path -/

/-- The parts of two names: they share a directory, the first one lies in `outer` below it, and the
second one is `inner`. -/
structure RequireParts (source target : String) (shared outer inner : List String) : Prop where
  source : (segments source).dropLast = shared ++ outer
  target : segments target = shared ++ inner
  filled : inner ≠ []

/-- The steps up and down between two names. -/
def requireText (outer inner : List String) : String :=
  String.intercalate "/" (List.replicate outer.length ".." ++ inner)

/-- A path with a dot in front, unless it begins with two. -/
def withDot (path : String) : String :=
  if "..".toList.isPrefixOf path.toList then path else "./" ++ path

/-- Two lists begin with the same segments, up to their common length. -/
theorem take_commonLength (as bs : List String) {n : Nat} (h : n ≤ commonLength as bs) :
    as.take n = bs.take n ∧ n ≤ as.length := by
  fun_induction commonLength as bs generalizing n with
  | case1 a as b bs hab ih =>
      obtain rfl : a = b := beq_iff_eq.mp hab
      cases n with
      | zero => simp
      | succ n =>
          obtain ⟨htake, hle⟩ := ih (Nat.le_of_succ_le_succ h)
          exact ⟨by rw [List.take_succ_cons, List.take_succ_cons, htake], by simpa using hle⟩
  | case2 => simp [Nat.le_zero.mp h]
  | case3 => simp [Nat.le_zero.mp h]

theorem commonLength_append (as bs : List String) : commonLength as (as ++ bs) = as.length := by
  induction as with
  | nil => simp [commonLength]
  | cons a as ih => simp [commonLength, ih]

/-- The path goes up out of `outer` and down along `inner`.  It does not go up at all exactly if the
second name lies below the directory of the first one. -/
theorem exists_requireParts (source target : String) :
    ∃ shared outer inner, RequireParts source target shared outer inner ∧
      relativeRequire source target = withDot (requireText outer inner) ∧
      (outer = [] ↔
        ∃ below, below ≠ [] ∧ segments target = (segments source).dropLast ++ below) := by
  have hpos := List.length_pos_iff.mpr (segments_ne_nil target)
  obtain ⟨common, hcommon⟩ : ∃ common,
      common = min (commonLength (segments source).dropLast (segments target))
        ((segments target).length - 1) := ⟨_, rfl⟩
  obtain ⟨htake, hle⟩ := take_commonLength (segments source).dropLast (segments target)
    (n := common) (by omega)
  refine ⟨(segments target).take common, (segments source).dropLast.drop common,
    (segments target).drop common, ⟨?_, ?_, ?_⟩, ?_, ?_, ?_⟩
  · rw [← htake, List.take_append_drop]
  · rw [List.take_append_drop]
  · rw [Ne, List.drop_eq_nil_iff]
    omega
  · rw [requireText, List.length_drop, hcommon]
    rfl
  · intro houter
    have hall : (segments source).dropLast = (segments target).take common := by
      rw [← htake, List.take_of_length_le (List.drop_eq_nil_iff.mp houter)]
    refine ⟨(segments target).drop common, ?_, by rw [hall, List.take_append_drop]⟩
    rw [Ne, List.drop_eq_nil_iff]
    omega
  · rintro ⟨below, hbelow, htarget⟩
    have hlength : (segments source).dropLast.length ≤ (segments target).length - 1 := by
      have := List.length_pos_iff.mpr hbelow
      rw [htarget, List.length_append]
      omega
    rw [List.drop_eq_nil_iff, hcommon, htarget, commonLength_append, ← htarget]
    omega

/-! ### Where the path leads -/

/-- A name all of whose segments name a file or a directory. -/
def ProperName (name : String) : Prop :=
  ∀ segment ∈ segments name, segment ≠ "" ∧ segment ≠ "." ∧ segment ≠ ".."

instance (name : String) : Decidable (ProperName name) :=
  inferInstanceAs (Decidable (∀ segment ∈ segments name, _))

theorem ProperName.inner
    {name segment : String}
    (h : ProperName name)
    (hsegment : segment ∈ segments name) :
    Component.Inner (.normal segment) := by
  obtain ⟨hempty, hdot, hdots⟩ := h segment hsegment
  refine ⟨not_mem_of_mem_segments hsegment, ?_⟩
  simp [component?, Component.text, hempty, hdot, hdots]

/-- The directory of a name has the steps of the name without the last one. -/
theorem ProperName.components_directory
    {name : String}
    (h : ProperName name) :
    components ((nameDirectory? name).getD "") = (segments name).dropLast.map .normal := by
  have hinner : ∀ segment ∈ (segments name).dropLast, Component.Inner (.normal segment) :=
    fun segment hsegment => h.inner (List.dropLast_subset _ hsegment)
  unfold nameDirectory?
  split
  · rename_i hnone
    rw [hnone]
    rfl
  · exact components_intercalate hinner

/-- Steps up from names lead to those above. -/
theorem walks_up
    {names final : List String}
    {steps : List Component}
    (outer : List String)
    (h : Walks names steps final) :
    Walks (outer ++ names) (List.replicate outer.length .parent ++ steps) final := by
  induction outer with
  | nil => exact h
  | cons name outer ih =>
      rw [List.length_cons, List.replicate_succ]
      exact .up ih

theorem walks_down (names inner : List String) :
    Walks names (inner.map .normal) (inner.reverse ++ names) := by
  induction inner generalizing names with
  | nil => exact .done names
  | cons name inner ih =>
      rw [List.reverse_cons, List.append_assoc]
      exact .down (ih (name :: names))

/-- No step of a walk goes to the root. -/
theorem Path.Walks.root_notMem
    {names final : List String}
    {steps : List Component}
    (h : Walks names steps final) :
    .root ∉ steps := by
  induction h with
  | done names => simp
  | current _ ih => simpa using ih
  | down _ ih => simpa using ih
  | up _ ih => simpa using ih

section Leading

variable {source target : String} {shared outer inner : List String}

theorem RequireParts.inner_steps
    (h : RequireParts source target shared outer inner)
    (htarget : ProperName target) :
    ∀ step ∈ List.replicate outer.length Component.parent ++ inner.map .normal, step.Inner := by
  intro step hstep
  rcases List.mem_append.mp hstep with hstep | hstep
  · rw [List.eq_of_mem_replicate hstep]
    exact ⟨by decide, by decide⟩
  · obtain ⟨name, hname, rfl⟩ := List.mem_map.mp hstep
    refine htarget.inner ?_
    rw [h.target]
    exact List.mem_append_right _ hname

/-- The steps of the path, behind a dot or not. -/
theorem RequireParts.components_withDot
    (h : RequireParts source target shared outer inner)
    (htarget : ProperName target) :
    ∃ dots, (dots = [] ∨ dots = [.current]) ∧
      components (withDot (requireText outer inner)) =
        dots ++ (List.replicate outer.length .parent ++ inner.map .normal) := by
  have hinner := h.inner_steps htarget
  have hfilled : inner ≠ [] := h.filled
  generalize hsteps : List.replicate outer.length Component.parent ++ inner.map .normal = steps
    at hinner
  have htexts : steps.map Component.text = List.replicate outer.length ".." ++ inner := by
    rw [← hsteps, List.map_append, map_text_normal, List.map_replicate]
    rfl
  have hroot : steps.head? ≠ some .root := by
    intro hhead
    cases (hinner .root (List.mem_of_head? hhead)).read
  have hplain : requireText outer inner = ofComponents steps := by
    rw [requireText, ofComponents_eq_intercalate hroot, htexts]
  unfold withDot
  split
  · exact ⟨[], .inl rfl, by rw [hplain, components_ofComponents (.inner hinner)]; rfl⟩
  · refine ⟨[.current], .inr rfl, ?_⟩
    have hdot : "./" ++ requireText outer inner = ofComponents (.current :: steps) := by
      rw [ofComponents_eq_intercalate (by simp), List.map_cons, htexts, requireText]
      cases hlist : List.replicate outer.length ".." ++ inner with
      | nil => simp [hfilled] at hlist
      | cons first rest => rw [String.intercalate_cons_cons]; rfl
    rw [hdot, components_ofComponents (.current hinner)]
    rfl

/-- The path leads from the directory of one name to the other one. -/
theorem walks_relativeRequire (source : String) (htarget : ProperName target) :
    Walks (segments source).dropLast.reverse (components (relativeRequire source target))
      (segments target).reverse := by
  obtain ⟨shared, outer, inner, hparts, hpath, -⟩ := exists_requireParts source target
  obtain ⟨dots, hdots, hsteps⟩ := hparts.components_withDot htarget
  have hwalks := walks_up outer.reverse (walks_down shared.reverse inner)
  rw [List.length_reverse, ← List.reverse_append, ← List.reverse_append, ← hparts.source,
    ← hparts.target] at hwalks
  rw [hpath, hsteps]
  rcases hdots with rfl | rfl
  · exact hwalks
  · exact .current hwalks

/-- The path from one output file, seen from its directory, is the name of the other file.  On the
way it never goes up from the output directory, whichever that is. -/
theorem relativeRequire_leads
    (hsource : ProperName source)
    (htarget : ProperName target) :
    clean (join ((nameDirectory? source).getD "") (relativeRequire source target)) = target ∧
      ∀ root, normalize root = root →
        ¬GoesUp root (root ++ components ((nameDirectory? source).getD ""))
          (components (relativeRequire source target)) := by
  have hwalks := walks_relativeRequire source htarget
  have hplain : isAbsolute (relativeRequire source target) = false := by
    rw [Bool.eq_false_iff, Ne, ← head?_components]
    exact fun hroot => hwalks.root_notMem (List.mem_of_head? hroot)
  rw [hsource.components_directory]
  constructor
  · have hnothing : normalize [] = [] := rfl
    have hnormal : normalize (components
        (join ((nameDirectory? source).getD "") (relativeRequire source target))) =
          (segments target).map .normal := by
      rw [normalize_join hplain, hsource.components_directory]
      simpa using hwalks.normalize_eq hnothing
    rw [clean_of_normalize, hnormal, ofComponents_normal, intercalate_segments]
    rw [hnormal]
    simpa using segments_ne_nil target
  · intro root hroot
    exact (not_goesUp_iff hroot hwalks.root_notMem).mpr ⟨_, hwalks⟩

end Leading

/-- A file and a directory share a name: the path goes up to the directory that holds both. -/
theorem relativeRequire_leads_sharedName :
    ProperName "lib/index" ∧ ProperName "lib" ∧ relativeRequire "lib/index" "lib" = "../lib" ∧
      clean (join ((nameDirectory? "lib/index").getD "") (relativeRequire "lib/index" "lib")) =
        "lib" ∧
      ¬GoesUp [.root, .normal "out"]
        ([.root, .normal "out"] ++ components ((nameDirectory? "lib/index").getD ""))
        (components (relativeRequire "lib/index" "lib")) := by
  have hindex : ProperName "lib/index" := by decide +kernel
  have hlib : ProperName "lib" := by decide +kernel
  obtain ⟨hleads, hstays⟩ := relativeRequire_leads hindex hlib
  exact ⟨hindex, hlib, by decide +kernel, hleads, hstays _ rfl⟩

/-! ### Relative specifiers -/

/-- A name that begins with two dots but is not the step up. -/
def DotsName (name : String) : Prop :=
  "..".toList <+: name.toList ∧ name ≠ ".."

/-- The second name lies below the directory of the first one, and goes on there with a segment
that begins with two dots. -/
def DottedBelow (source target : String) : Prop :=
  ∃ first rest, segments target = (segments source).dropLast ++ first :: rest ∧ DotsName first

/-- What follows the first segment of a path is nothing or begins with a slash. -/
theorem toList_intercalate_cons (first : String) (rest : List String) :
    ∃ tail, (String.intercalate "/" (first :: rest)).toList = first.toList ++ tail ∧
      (tail = [] ∨ ∃ more, tail = '/' :: more) := by
  cases rest with
  | nil => exact ⟨[], by simp, .inl rfl⟩
  | cons second rest =>
      refine ⟨'/' :: (String.intercalate "/" (second :: rest)).toList, ?_, .inr ⟨_, rfl⟩⟩
      rw [String.intercalate_cons_cons]
      simp

/-- A path that begins with two dots gets no dot in front. -/
theorem isRelative_of_dots
    {path : String}
    {more tail : List Char}
    (hpath : path.toList = '.' :: '.' :: (more ++ tail))
    (hslash : '/' ∉ more)
    (htail : tail = [] ∨ ∃ rest, tail = '/' :: rest) :
    isRelative (withDot path) = true ↔ more = [] := by
  have hkept : withDot path = path := by
    rw [withDot, if_pos (by simp [hpath])]
  rw [hkept]
  simp only [isRelative, Bool.or_eq_true, beq_iff_eq, ← String.toList_inj, hpath]
  cases more with
  | nil =>
      rcases htail with rfl | ⟨rest, rfl⟩ <;> simp
  | cons c more =>
      have hc : '/' ≠ c := fun hc => hslash (hc ▸ List.mem_cons_self)
      simp [hc]

/-- A path begins with two dots if its first segment does, and then it is relative only if the
segment is the step up. -/
theorem isRelative_withDot_iff
    {first : String}
    (hslash : '/' ∉ first.toList)
    (rest : List String) :
    isRelative (withDot (String.intercalate "/" (first :: rest))) = true ↔ ¬DotsName first := by
  obtain ⟨tail, hpath, htail⟩ := toList_intercalate_cons first rest
  generalize String.intercalate "/" (first :: rest) = path at hpath
  by_cases hdots : "..".toList <+: first.toList
  · obtain ⟨more, hmore⟩ := hdots
    have hname : DotsName first ↔ more ≠ [] := by
      rw [DotsName, ← String.toList_inj.ne, ← hmore]
      simp
    rw [hname, not_not]
    rw [← hmore] at hpath hslash
    exact isRelative_of_dots hpath (fun hmem => hslash (List.mem_append_right _ hmem)) htail
  · refine iff_of_true ?_ fun hname => hdots hname.1
    have hnot : ¬"..".toList <+: path.toList := by
      rw [hpath]
      -- a slash behind the first segment is no dot
      rcases htail with rfl | ⟨more, rfl⟩
      · simpa using hdots
      · rcases hfirst : first.toList with _ | ⟨c, _ | ⟨d, cs⟩⟩
        · simp
        · simp
        · simpa [hfirst] using hdots
    rw [withDot, if_neg (by simpa using hnot)]
    simp [isRelative]

/-- The path is a relative specifier unless the second name goes on with a segment that begins with
two dots. -/
theorem isRelative_relativeRequire_iff (source target : String) :
    isRelative (relativeRequire source target) = true ↔ ¬DottedBelow source target := by
  obtain ⟨shared, outer, inner, hparts, hpath, houter⟩ := exists_requireParts source target
  have htarget : segments target = shared ++ inner := hparts.target
  rw [hpath, requireText]
  cases outer with
  | cons name outer =>
      -- the path goes up, so the second name does not lie below the directory of the first one
      have hslash : '/' ∉ "..".toList := by decide
      have hup := isRelative_withDot_iff hslash (List.replicate outer.length ".." ++ inner)
      refine iff_of_true (hup.mpr fun hdots => hdots.2 rfl) ?_
      rintro ⟨first, rest, hbelow, -⟩
      cases houter.mpr ⟨first :: rest, by simp, hbelow⟩
  | nil =>
      have hsource : (segments source).dropLast = shared := by simpa using hparts.source
      obtain ⟨first, rest, rfl⟩ := List.exists_cons_of_ne_nil hparts.filled
      have hmem : first ∈ segments target := by simp [htarget]
      rw [List.length_nil, List.replicate_zero, List.nil_append,
        isRelative_withDot_iff (not_mem_of_mem_segments hmem)]
      refine not_congr ⟨fun hdots => ⟨first, rest, by rw [hsource, htarget], hdots⟩, ?_⟩
      rintro ⟨first', rest', hbelow, hdots⟩
      rw [hsource, htarget] at hbelow
      cases List.append_cancel_left hbelow
      exact hdots

end EsModules
