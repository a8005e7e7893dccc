import EsModules.Proofs.Graph.ExternalSources
import EsModules.Proofs.Graph.Names
import EsModules.Proofs.Path.Walk

/-!
# Registry keys

A module that imports a file by a relative path computes a key for it from its own registration
name, and the file registers itself under a name of its own, computed from its path below the root.
Both come from one walk: the key counts names from nothing and the candidate path from the root.
They agree if and only if the walk does not go up from the root.
-/

namespace EsModules

open EsModules.Path

/-! ### Texts of paths -/

namespace Path

theorem mem_intercalate_iff {c : Char} (hc : c ≠ '/') (texts : List String) :
    c ∈ (String.intercalate "/" texts).toList ↔ ∃ text ∈ texts, c ∈ text.toList := by
  induction texts with
  | nil => simp
  | cons first rest ih =>
      cases rest with
      | nil => simp
      | cons second rest =>
          rw [String.intercalate_cons_cons, List.exists_mem_cons_iff, ← ih]
          simp [hc]

/-- The characters of a step are those of its path, apart from the ones of dots and slashes. -/
theorem mem_of_mem_components
    {c : Char}
    (hslash : c ≠ '/')
    (hdot : c ≠ '.')
    {path : String}
    {step : Component}
    (hstep : step ∈ components path)
    (h : c ∈ step.text.toList) :
    c ∈ path.toList := by
  cases step with
  | root => simp [Component.text, hslash] at h
  | current => simp [Component.text, hdot] at h
  | parent => simp [Component.text, hdot] at h
  | normal name =>
      have hname : Component.normal name ∈ (segments path).filterMap component? := by
        unfold components at hstep
        dsimp only at hstep
        split at hstep
        · simpa using hstep
        · split at hstep
          · simpa using hstep
          · exact hstep
      obtain ⟨segment, hsegment, hread⟩ := List.mem_filterMap.mp hname
      obtain rfl : segment = name := by
        unfold component? at hread
        split at hread
        · cases hread
        · split at hread
          · cases hread
          · cases hread
            rfl
      rw [← intercalate_segments path]
      exact (mem_intercalate_iff hslash _).mpr ⟨segment, hsegment, h⟩

theorem mem_of_mem_ofComponents
    {c : Char}
    (hslash : c ≠ '/')
    {steps : List Component}
    (h : c ∈ (ofComponents steps).toList) :
    ∃ step ∈ steps, c ∈ step.text.toList := by
  have htexts : ∀ others : List Component,
      c ∈ (String.intercalate "/" (others.map Component.text)).toList →
      ∃ step ∈ others, c ∈ step.text.toList := by
    intro others hothers
    obtain ⟨text, htext, hc⟩ := (mem_intercalate_iff hslash _).mp hothers
    obtain ⟨step, hstep, rfl⟩ := List.mem_map.mp htext
    exact ⟨step, hstep, hc⟩
  unfold ofComponents at h
  split at h
  · rename_i rest
    rw [String.toList_append, List.mem_append] at h
    obtain ⟨step, hstep, hc⟩ := htexts rest (h.resolve_left (by simpa using hslash))
    exact ⟨step, List.mem_cons_of_mem _ hstep, hc⟩
  · exact htexts _ h

/-- Cleaning brings in no characters but dots and slashes. -/
theorem mem_of_mem_clean
    {c : Char}
    (hslash : c ≠ '/')
    (hdot : c ≠ '.')
    {path : String}
    (h : c ∈ (clean path).toList) :
    c ∈ path.toList := by
  by_cases hnil : normalize (components path) = []
  · rw [clean_of_normalize_nil hnil] at h
    simp [hdot] at h
  · rw [clean_of_normalize hnil] at h
    obtain ⟨step, hstep, hc⟩ := mem_of_mem_ofComponents hslash h
    exact mem_of_mem_components hslash hdot (mem_of_mem_normalize hstep) hc

theorem mem_of_mem_join
    {c : Char}
    (hslash : c ≠ '/')
    {directory path : String}
    (h : c ∈ (join directory path).toList) :
    c ∈ directory.toList ∨ c ∈ path.toList := by
  unfold join at h
  split at h
  · exact .inr h
  · split at h
    · exact .inr h
    · split at h
      · simpa using h
      · simpa [hslash] using h

/-- A clean path has no dot in front of its first slash. -/
theorem clean_ne_dot_slash (path : String) (rest : List Char) :
    (clean path).toList ≠ '.' :: '/' :: rest := by
  intro h
  have hclean : clean path = "." ++ "/" ++ String.ofList rest := by
    rw [← String.toList_inj, h]
    simp
  have hcurrent : .current ∈ components (clean path) := by
    have hsegments : segments (clean path) = "." :: segments (String.ofList rest) := by
      rw [hclean, segments_append_slash]
      rfl
    have habsolute : isAbsolute (clean path) = false := by
      simp [isAbsolute, h]
    simp [components, habsolute, hsegments]
  by_cases hnil : normalize (components path) = []
  · rw [clean_of_normalize_nil hnil] at h
    simp at h
  · rw [components_clean hnil] at hcurrent
    exact (normal_normalize (wellFormed_components path)).current_not_mem hcurrent

/-- An extension without dots is cut off where it was put. -/
theorem splitExtension_append
    {stem extension : String}
    (hstem : stem ≠ "")
    (hdot : '.' ∉ extension.toList) :
    splitExtension (stem ++ "." ++ extension) = (stem, some extension) := by
  have hback : (stem ++ "." ++ extension).toList.reverse =
      extension.toList.reverse ++ '.' :: stem.toList.reverse := by
    simp
  have hextension : (extension.toList.reverse ++ '.' :: stem.toList.reverse).takeWhile (· != '.') =
      extension.toList.reverse := by
    rw [List.takeWhile_append_of_pos]
    · simp
    · intro c hc
      have hne : c ≠ '.' := by
        rintro rfl
        exact hdot (List.mem_reverse.mp hc)
      simpa using hne
  unfold splitExtension
  simp only [hback, hextension, List.drop_left]
  simp [hstem]

theorem isAbsolute_of_isRelative {path : String} (h : isRelative path = true) :
    isAbsolute path = false := by
  have hdot : ∀ text : String, text.toList.head? = some '.' →
      text.toList.isPrefixOf path.toList = true → isAbsolute path = false := by
    intro text htext hprefix
    obtain ⟨rest, hrest⟩ := List.isPrefixOf_iff_prefix.mp hprefix
    rw [isAbsolute, ← hrest, List.head?_append, htext]
    rfl
  simp only [isRelative, Bool.or_eq_true, beq_iff_eq] at h
  rcases h with ((rfl | rfl) | h) | h
  · rfl
  · rfl
  · exact hdot _ rfl h
  · exact hdot _ rfl h

theorem root_not_mem_components {path : String} (h : isAbsolute path = false) :
    .root ∉ components path := by
  intro hmem
  rw [isAbsolute_of_root_mem hmem] at h
  cases h

theorem components_ne_nil {path : String} (h : isAbsolute path = true) : components path ≠ [] := by
  intro hnil
  have hhead := (head?_components path).mpr h
  rw [hnil] at hhead
  cases hhead

theorem dropComponents_append (front rest : List Component) :
    dropComponents front (front ++ rest) = some rest := by
  induction front with
  | nil => rfl
  | cons step front ih =>
      rw [List.cons_append, dropComponents, if_pos (beq_self_eq_true step), ih]

end Path

/-- The key of a relative path is the clean path. -/
theorem joinRegistryPath_eq
    {directory source : String}
    (hdirectory : '\\' ∉ directory.toList)
    (hsource : '\\' ∉ source.toList) :
    joinRegistryPath directory source = clean (join directory source) := by
  have hnone : '\\' ∉ (clean (join directory source)).toList := by
    intro hmem
    have hjoin := mem_of_mem_clean (by decide) (by decide) hmem
    exact (mem_of_mem_join (by decide) hjoin).elim hdirectory hsource
  have hkey : (clean (join directory source)).toList.map
      (fun c => if c == '\\' then '/' else c) = (clean (join directory source)).toList := by
    conv_rhs => rw [← List.map_id (clean (join directory source)).toList]
    apply List.map_congr_left
    intro c hc
    have hne : c ≠ '\\' := by
      rintro rfl
      exact hnone hc
    simp [hne]
  unfold joinRegistryPath
  simp only [hkey]
  split
  · rename_i rest hdot
    exact absurd hdot (clean_ne_dot_slash _ _)
  · exact String.ofList_toList

/-- An absolute root is taken off the paths below it. -/
theorem not_empty_or_current_of_isAbsolute
    {root : String}
    (hroot : isAbsolute root = true) :
    (root == "" || components root == [.current]) = false := by
  rw [Bool.or_eq_false_iff, beq_eq_false_iff_ne, beq_eq_false_iff_ne]
  constructor
  · rintro rfl
    cases hroot
  · intro hcurrent
    have hhead := (head?_components root).mpr hroot
    rw [hcurrent] at hhead
    cases hhead

theorem rootSteps_of_isAbsolute
    {root : String}
    (hroot : isAbsolute root = true) :
    rootSteps root = components root := by
  rw [rootSteps, not_empty_or_current_of_isAbsolute hroot]
  rfl

/-- The name of a file below an absolute root. -/
theorem registrationName?_of_components
    {root path last : String}
    {names : List String}
    (hroot : isAbsolute root = true)
    (hpath : components path = components root ++ names.map .normal ++ [.normal last]) :
    registrationName? root path =
      some (String.intercalate "/" (names ++ [(splitExtension last).1])) := by
  have hwell := wellFormed_components path
  rw [hpath, List.append_assoc] at hwell
  have hrelative := components_ofComponents hwell.of_append_right
  have hbelow : below? root path = some (ofComponents (names.map .normal ++ [.normal last])) := by
    rw [below?, hpath, List.append_assoc, dropComponents_append]
    rfl
  have hrelative? : relative? root path =
      some (ofComponents (names.map .normal ++ [.normal last])) := by
    rw [relative?, not_empty_or_current_of_isAbsolute hroot]
    exact hbelow
  have hhead : ((components (ofComponents (names.map .normal ++ [.normal last]))).head? ==
        some .parent ||
      (components (ofComponents (names.map .normal ++ [.normal last]))).head? ==
        some .root) = false := by
    rw [hrelative]
    cases names with
    | nil => rfl
    | cons name names => rfl
  rw [registrationName?_eq, hrelative?, Option.bind_some, hhead,
    fileStem?_of_components hrelative, parent?_of_components hrelative, Option.getD_some,
    components_ofComponents hwell.of_append_right.of_append_left, map_text_normal]
  rfl

/-! ### Modules below the root -/

namespace Path

theorem Canonical.normal {path : String} (h : Canonical path) : Normal (components path) := by
  obtain ⟨names, hnames, rfl⟩ := h
  rw [components_of_names hnames]
  exact .absolute hnames

theorem Canonical.ofComponents_eq {path : String} (h : Canonical path) :
    ofComponents (components path) = path := by
  obtain ⟨names, hnames, rfl⟩ := h
  rw [components_of_names hnames]

/-- Below a path in normal form there are names only. -/
theorem Canonical.names_of_components
    {path : String}
    (h : Canonical path)
    {root below : List Component}
    (hpath : components path = root ++ below)
    (hroot : root ≠ []) :
    ∃ names : List String,
      (∀ name ∈ names, Component.Inner (.normal name)) ∧ below = names.map .normal := by
  obtain ⟨all, hall, rfl⟩ := h
  rw [components_of_names hall] at hpath
  obtain ⟨first, root, rfl⟩ := List.exists_cons_of_ne_nil hroot
  obtain ⟨-, hrest⟩ := List.cons_eq_cons.mp hpath
  obtain ⟨front, names, rfl, -, rfl⟩ := List.map_eq_append_iff.mp hrest
  exact ⟨names, fun name hname => hall name (List.mem_append_right _ hname), rfl⟩

theorem clean_ne_empty (path : String) : clean path ≠ "" := by
  intro hempty
  by_cases hnil : normalize (components path) = []
  · rw [clean_of_normalize_nil hnil] at hempty
    exact absurd hempty (by decide)
  · have hsteps := components_clean hnil
    rw [hempty] at hsteps
    exact hnil hsteps.symm

theorem isAbsolute_append_left
    {front : String}
    (hne : front ≠ "")
    (back : String) :
    isAbsolute (front ++ back) = isAbsolute front := by
  have hchars : front.toList ≠ [] := by simpa using hne
  unfold isAbsolute
  rw [String.toList_append, List.head?_append_of_ne_nil _ hchars]

theorem canonical_of_finds
    {files : SourceFiles}
    {path : String}
    (h : files.Finds path)
    (habsolute : isAbsolute path = true) :
    Canonical path := by
  obtain ⟨candidate, hlookup⟩ := h
  refine Graph.canonical_lookup? (canonical_clean ?_) hlookup
  rw [← isAbsolute_clean]
  have hne := clean_ne_empty candidate
  rcases Graph.cases_of_lookup? hlookup with rfl | ⟨e, he, rfl⟩ | ⟨e, he, rfl⟩
  · exact habsolute
  · rw [isAbsolute_append_left hne] at habsolute
    exact habsolute
  · have hindex : isAbsolute ("index." ++ e) = false :=
      isAbsolute_append (by decide) (by decide) e
    rw [join_eq hindex, String.append_assoc, isAbsolute_append_left hne] at habsolute
    exact habsolute

end Path

namespace Graph

variable {g : Graph} {m b : GraphModule}

/-- The root of a graph is a path in normal form. -/
theorem Reached.exists_root (hg : g.Reached) : ∃ root, g.root = clean root := by
  refine Reached.invariant (P := fun g => ∃ root, g.root = clean root) ?_ ?_ hg
  · exact fun root _ _ => ⟨root, rfl⟩
  · intro g g' hg hchange
    cases hchange with
    | load hid hnew hread => exact hg
    | provide hnew => exact hg
    | link id specifier dependency => exact hg
    | settle id => exact hg
    | enter id =>
        split
        · exact hg
        · exact hg

theorem Reached.canonical_root
    (hg : g.Reached)
    (hroot : isAbsolute g.root = true) :
    Canonical g.root := by
  obtain ⟨root, hclean⟩ := hg.exists_root
  rw [hclean, isAbsolute_clean] at hroot
  rw [hclean]
  exact canonical_clean hroot

/-- A file that was looked up and has a name below an absolute root is known by its normal form. -/
theorem canonical_of_registrationName?
    (hroot : isAbsolute g.root = true)
    {path name : String}
    (hfinds : g.files.Finds path)
    (hname : registrationName? g.root path = some name) :
    Canonical path := by
  obtain ⟨outer, last, hsteps, -, -⟩ := steps_of_registrationName? hname
  apply canonical_of_finds hfinds
  rw [← head?_components, hsteps, rootSteps_of_isAbsolute hroot, List.append_assoc,
    List.head?_append, (head?_components g.root).mpr hroot]
  rfl

/-- A local module stands below the root under names that its own name is made of. -/
structure StandsAt (g : Graph) (m : GraphModule) (names : List String) (last : String) : Prop where
  inner : ∀ name ∈ names, Component.Inner (.normal name)
  steps : components m.id.path = components g.root ++ names.map .normal ++ [.normal last]
  name : m.name = String.intercalate "/" (names ++ [(splitExtension last).1])

theorem Reached.standsAt
    (hg : g.Reached)
    (hroot : isAbsolute g.root = true)
    (hm : m ∈ g.modules)
    (hlocal : m.external = false) :
    ∃ names last, g.StandsAt m names last := by
  cases (hg.coherent.genuine m hm).origin with
  | external hm' =>
      rw [hm'] at hlocal
      cases hlocal
  | @file path _ hpath hid hname =>
      have hfile := canonical_of_registrationName? hroot (hg.lookedUp m hm path hpath) hname
      obtain ⟨outer, last, hsteps, -, htext⟩ := steps_of_registrationName? hname
      rw [rootSteps_of_isAbsolute hroot, List.append_assoc] at hsteps
      obtain ⟨names, hnames, hbelow⟩ :=
        hfile.names_of_components hsteps (components_ne_nil hroot)
      obtain ⟨front, back, rfl, rfl, hback⟩ := List.map_eq_append_iff.mp hbelow.symm
      refine ⟨front, last, ?_, ?_, ?_⟩
      · exact fun name hname => hnames name (List.mem_append_left _ hname)
      · rw [hid, hfile.clean_eq, hsteps, List.append_assoc]
      · rw [htext, List.map_map]
        congr 2
        exact List.map_id front

/-! ### The two sides of an import -/

/-- The path that a relative import stands for, without an extension. -/
def candidate (g : Graph) (m : GraphModule) (source : String) : String :=
  clean (join (Resolver.baseDirectory g.root m.id) source)

/-- The way from the directory of a module along a relative import goes up from the root.  At the
top of the file tree such a step leads nowhere, but it is one. -/
def LeavesRoot (g : Graph) (m : GraphModule) (source : String) : Prop :=
  GoesUp (components g.root) (components (Resolver.baseDirectory g.root m.id)) (components source)

/-- All places on this way are the root or below it. -/
def StaysBelowRoot (g : Graph) (m : GraphModule) (source : String) : Prop :=
  StaysWithin (components g.root) (components (Resolver.baseDirectory g.root m.id))
    (components source)

section Import

variable {names : List String} {last source : String}

/-- Relative imports are looked up from the directory of the module. -/
theorem StandsAt.components_baseDirectory
    (h : g.StandsAt m names last)
    (hlocal : m.id.isExternal = false) :
    components (Resolver.baseDirectory g.root m.id) = components g.root ++ names.map .normal := by
  have hwell := wellFormed_components m.id.path
  rw [h.steps] at hwell
  rw [Resolver.baseDirectory, hlocal, parent?_of_components h.steps]
  exact components_ofComponents hwell.of_append_left

theorem StandsAt.nameDirectory?_eq (h : g.StandsAt m names last) :
    (nameDirectory? m.name).getD "." =
      if names = [] then "." else String.intercalate "/" names := by
  have hsegments : segments m.name = names ++ [(splitExtension last).1] := by
    rw [h.name]
    apply segments_intercalate
    · simp
    · rw [List.forall_mem_append, List.forall_mem_singleton]
      exact ⟨fun name hname => (h.inner name hname).noSlash,
        (stem_of_inner (inner_of_components h.steps)).2⟩
  rw [nameDirectory?, hsegments, List.dropLast_concat]
  cases names with
  | nil => rfl
  | cons name names => rfl

/-- The directory of a name is that of the file, counted from the root. -/
theorem StandsAt.normalize_directory
    (h : g.StandsAt m names last)
    (steps : List Component) :
    Path.normalize (components ((nameDirectory? m.name).getD ".") ++ steps) =
      Path.normalize (names.map .normal ++ steps) := by
  rw [h.nameDirectory?_eq]
  split
  · rename_i hnames
    have hdot : components "." = [.current] := by decide
    rw [hdot, hnames]
    rfl
  · rw [components_intercalate h.inner]

theorem StandsAt.not_mem_directory
    (h : g.StandsAt m names last)
    (hname : '\\' ∉ m.name.toList) :
    '\\' ∉ ((nameDirectory? m.name).getD ".").toList := by
  rw [h.nameDirectory?_eq]
  split
  · decide
  · intro hmem
    obtain ⟨name, hmem, hc⟩ := (mem_intercalate_iff (by decide) _).mp hmem
    apply hname
    rw [h.name]
    exact (mem_intercalate_iff (by decide) _).mpr ⟨name, List.mem_append_left _ hmem, hc⟩

/-- The key of a relative import is the clean path from the directory of the module's name. -/
theorem StandsAt.registryKey_eq
    (h : g.StandsAt m names last)
    (hrelative : isRelative source = true)
    (hname : '\\' ∉ m.name.toList)
    (hsource : '\\' ∉ source.toList)
    (format : FormatOptions) :
    (g.moduleOptions m format).registryKey source =
      .ok (clean (join ((nameDirectory? m.name).getD ".") source)) := by
  rw [← joinRegistryPath_eq (h.not_mem_directory hname) hsource, TranspileOptions.registryKey,
    hrelative]
  rfl

/-- The name of the file that a candidate below the root leads to. -/
theorem registrationName?_of_candidate
    (hroot : isAbsolute g.root = true)
    {path e : String}
    {below : List String}
    (hcanonical : Canonical path)
    (hpath : components path = components g.root ++ below.map .normal)
    (hne : below ≠ [])
    (he : e ∈ SourceFiles.extensions) :
    registrationName? g.root (path ++ ("." ++ e)) = some (String.intercalate "/" below) := by
  obtain ⟨outer, stem, rfl⟩ := (List.eq_nil_or_concat' below).resolve_left hne
  obtain ⟨hslash, c, hc, hchar⟩ := piece_of_mem_extensions he
  have hdot : '.' ∉ e.toList := by
    have he : e = "js" ∨ e = "mjs" := by simpa [SourceFiles.extensions] using he
    rcases he with rfl | rfl
    · decide
    · decide
  have hsteps : components path =
      components g.root ++ outer.map .normal ++ [.normal stem] := by
    rw [hpath, List.map_append, List.append_assoc]
    rfl
  have hstem := inner_of_components hsteps
  have hlast : Component.Inner (.normal (stem ++ ("." ++ e))) := by
    apply inner_normal
    · simp [hstem.name_piece.2, hslash]
    · exact ⟨c, by simp [hc], hchar⟩
  have hfront : Normal (components g.root ++ outer.map .normal) :=
    (hsteps ▸ hcanonical.normal).of_concat.1
  have hfile : path ++ ("." ++ e) =
      ofComponents (components g.root ++ outer.map .normal ++ [.normal (stem ++ ("." ++ e))]) := by
    rw [← hcanonical.ofComponents_eq, hsteps, ofComponents_append_text (by simp)]
    rfl
  have hread := components_ofComponents (hfront.concat hlast).wellFormed
  rw [← hfile] at hread
  rw [registrationName?_of_components hroot hread, ← String.append_assoc,
    splitExtension_append hstem.name_piece.1 hdot]

/-- The key of an import is the name of the file if and only if the walk to the file does not go up
from the root. -/
theorem StandsAt.key_eq_iff
    (h : g.StandsAt m names last)
    (hlocal : m.id.isExternal = false)
    (hroot : Canonical g.root)
    (hsource : isAbsolute source = false)
    {below : List String}
    (hinner : ∀ name ∈ below, Component.Inner (.normal name))
    (hcandidate : components (g.candidate m source) = components g.root ++ below.map .normal)
    (hne : below ≠ []) :
    clean (join ((nameDirectory? m.name).getD ".") source) = String.intercalate "/" below ↔
      ¬g.LeavesRoot m source := by
  have hrootSteps := hroot.normal.normalize_eq
  have hsteps := root_not_mem_components hsource
  have hkey : Path.normalize (components (join ((nameDirectory? m.name).getD ".") source)) =
      Path.normalize (names.map .normal ++ components source) := by
    rw [normalize_join hsource, h.normalize_directory]
  rw [LeavesRoot, h.components_baseDirectory hlocal]
  constructor
  · intro hname hup
    have hparent := head?_of_goesUp hrootSteps hsteps hup
    have hclimbed :
        Path.normalize (components (join ((nameDirectory? m.name).getD ".") source)) ≠ [] := by
      intro hnil
      rw [← hkey, hnil] at hparent
      cases hparent
    rw [← hkey, ← components_clean hclimbed, hname, components_intercalate hinner] at hparent
    obtain ⟨first, below, rfl⟩ := List.exists_cons_of_ne_nil hne
    cases hparent
  · intro hstays
    obtain ⟨final, hwalks⟩ := (not_goesUp_iff hrootSteps hsteps).mp hstays
    have hlookup : Path.normalize (components (join (Resolver.baseDirectory g.root m.id) source)) =
        components g.root ++ final.reverse.map .normal := by
      rw [normalize_join hsource, h.components_baseDirectory hlocal,
        hwalks.normalize_eq hrootSteps]
    have hbelow : final.reverse = below := by
      have hplace : Path.normalize (components (join (Resolver.baseDirectory g.root m.id) source)) ≠
          [] := by
        rw [hlookup]
        exact List.append_ne_nil_of_left_ne_nil (components_ne_nil hroot.isAbsolute) _
      rw [candidate, components_clean hplace, hlookup] at hcandidate
      have hinjective : Function.Injective Component.normal := fun _ _ heq =>
        Component.normal.inj heq
      exact hinjective.list_map (List.append_cancel_left hcandidate)
    have hnothing : Path.normalize [] = [] := rfl
    have hfinal := hwalks.normalize_eq hnothing
    rw [List.nil_append, List.nil_append, ← hkey, hbelow] at hfinal
    rw [clean_of_normalize (by simp [hfinal, hne]), hfinal, ofComponents_normal]

/-- The module of the file that an import resolves to has the name of the file. -/
theorem Reached.name_of_leadsTo
    (hg : g.Reached)
    (hroot : isAbsolute g.root = true)
    (hm : m ∈ g.modules)
    {path name : String}
    (hresolution : g.resolution? source m.id = some (.file path))
    (hname : registrationName? g.root path = some name)
    (hleads : g.LeadsTo m source b) :
    b.name = name := by
  have hcoherent := hg.coherent
  have hfinds := finds_of_resolution? hresolution
  have hfile := canonical_of_registrationName? hroot hfinds hname
  obtain ⟨id, hdependency, hb⟩ := hleads
  have hb' := mem_of_module? hb
  have htarget := (hcoherent.genuine m hm).target?_of_dependency? hdependency
  rw [target?, hresolution] at htarget
  have hid := toOption_eq_some.mp htarget
  have hsame := same_of_module? hb
  have hlocal : b.external = false := by
    rw [← (hcoherent.genuine b hb').isExternal_id (hg.lookedUp b hb'),
      ModuleId.isExternal_congr hsame]
    exact isExternal_of_ofPath hfinds hid
  cases (hcoherent.genuine b hb').origin with
  | external hb'' =>
      rw [hb''] at hlocal
      cases hlocal
  | @file other _ hother hotherId hotherName =>
      have hotherFile :=
        canonical_of_registrationName? hroot (hg.lookedUp b hb' other hother) hotherName
      rw [ModuleId.same_iff, hotherId, ModuleId.eq_of_ofPath hid, hotherFile.clean_eq,
        hfile.clean_eq] at hsame
      rw [hotherFile.eq_of_components hfile hsame, hname] at hotherName
      exact (Option.some_inj.mp hotherName).symm

end Import

/-- The key that a module computes for a file that it imports is the name under which the file
registers itself, if and only if the way to the file does not leave the root.  Below any root but
the top of the file tree this means that it stays below the root. -/
theorem registryKey_eq_name_iff
    (g : Graph)
    (hg : g.Reached)
    (hroot : isAbsolute g.root = true)
    {m : GraphModule}
    (hm : m ∈ g.modules)
    (hlocal : m.external = false)
    {source path e : String}
    (hrelative : isRelative source = true)
    (hname : '\\' ∉ m.name.toList)
    (hsource : '\\' ∉ source.toList)
    {below : List Component}
    (hbelow : components (g.candidate m source) = components g.root ++ below)
    (hne : below ≠ [])
    (he : e ∈ SourceFiles.extensions)
    (hpath : path = g.candidate m source ++ ("." ++ e))
    (hresolution : g.resolution? source m.id = some (.file path))
    (format : FormatOptions) :
    ∃ key name,
      (g.moduleOptions m format).registryKey source = .ok key ∧
      registrationName? g.root path = some name ∧
      (∀ b, g.LeadsTo m source b → b.name = name) ∧
      (key = name ↔ ¬g.LeavesRoot m source) ∧
      (g.root ≠ "/" → (g.StaysBelowRoot m source ↔ ¬g.LeavesRoot m source)) := by
  have hcanonical := hg.canonical_root hroot
  obtain ⟨names, last, hstands⟩ := hg.standsAt hroot hm hlocal
  have hid : m.id.isExternal = false := by
    rw [(hg.coherent.genuine m hm).isExternal_id (hg.lookedUp m hm), hlocal]
  have habsolute := isAbsolute_of_isRelative hrelative
  have hdirectory := hstands.components_baseDirectory hid
  have hhead := (head?_components g.root).mpr hroot
  have hcandidate : Canonical (g.candidate m source) := by
    apply canonical_clean
    apply isAbsolute_join
    rw [← head?_components, hdirectory, List.head?_append, hhead]
    rfl
  obtain ⟨names', hinner, rfl⟩ :=
    hcandidate.names_of_components hbelow (components_ne_nil hroot)
  have hne' : names' ≠ [] := by simpa using hne
  have hregistered : registrationName? g.root path = some (String.intercalate "/" names') := by
    rw [hpath]
    exact registrationName?_of_candidate hroot hcandidate hbelow hne' he
  refine ⟨_, _, hstands.registryKey_eq hrelative hname hsource format, hregistered, ?_, ?_, ?_⟩
  · exact fun b => hg.name_of_leadsTo hroot hm hresolution hregistered
  · exact hstands.key_eq_iff hid hcanonical habsolute hinner hbelow hne'
  · intro hslash
    have hsteps : components g.root ≠ [.root] := by
      intro hsingle
      apply hslash
      rw [← hcanonical.ofComponents_eq, hsingle]
      rfl
    rw [StaysBelowRoot, LeavesRoot, hdirectory]
    exact staysWithin_iff hcanonical.normal hhead hsteps (root_not_mem_components habsolute)

/-- A module in a directory imports a file of another one, whose name has a dot. -/
def dottedImport : Graph :=
  after (addEntry "lib/a")
    (.empty "/p"
      (.ofTexts
        [("/p/lib/a.js", "import '..//util/./b.c';\n"), ("/p/util/b.c.js", "export var x = 1;\n")])
      (Resolver.defaults []))

theorem registryKey_eq_name_iff_dottedImport :
    ∃ m ∈ dottedImport.modules,
      m.name = "lib/a" ∧
      dottedImport.resolution? "..//util/./b.c" m.id = some (.file "/p/util/b.c.js") ∧
      ∃ key,
        (dottedImport.moduleOptions m {}).registryKey "..//util/./b.c" = .ok key ∧
        registrationName? dottedImport.root "/p/util/b.c.js" = some key := by
  have hfacts :
      (dottedImport.module? ⟨"/p/lib/a.js"⟩).map (fun m =>
          ((m.external, m.name), dottedImport.candidate m "..//util/./b.c",
            Resolver.baseDirectory dottedImport.root m.id,
            dottedImport.resolution? "..//util/./b.c" m.id)) =
        some ((false, "lib/a"), "/p/util/b.c", "/p/lib", some (.file "/p/util/b.c.js")) := by
    decide +kernel
  obtain ⟨m, hm, hfacts⟩ := Option.map_eq_some_iff.mp hfacts
  simp only [Prod.mk.injEq] at hfacts
  obtain ⟨⟨hlocal, hname⟩, hcandidate, hdirectory, hresolution⟩ := hfacts
  have hroot : dottedImport.root = "/p" := by decide +kernel
  have hreached : dottedImport.Reached := .addEntry (.empty _ _ _) _
  have hstays : ¬dottedImport.LeavesRoot m "..//util/./b.c" := by
    have hnormal : Path.normalize (components "/p") = components "/p" := by decide +kernel
    have hplace : components "/p/lib" = components "/p" ++ ["lib"].map .normal := by
      decide +kernel
    have hsteps :
        components "..//util/./b.c" = [.parent, .normal "util", .normal "b.c"] := by
      decide +kernel
    have hwalks :
        Walks ["lib"] [.parent, .normal "util", .normal "b.c"] ["b.c", "util"] :=
      .up (.down (.down (.done _)))
    rw [LeavesRoot, hdirectory, hroot, hplace, hsteps]
    exact (not_goesUp_iff hnormal (by decide)).mpr ⟨_, hwalks⟩
  have hmem := mem_of_module? hm
  have hbelow :
      components (dottedImport.candidate m "..//util/./b.c") =
        components dottedImport.root ++ [.normal "util", .normal "b.c"] := by
    rw [hcandidate, hroot]
    decide +kernel
  have hpath :
      "/p/util/b.c.js" = dottedImport.candidate m "..//util/./b.c" ++ ("." ++ "js") := by
    rw [hcandidate]
    rfl
  obtain ⟨key, name, hkey, hregistered, -, hiff, -⟩ :=
    registryKey_eq_name_iff dottedImport hreached (by rw [hroot]; rfl) hmem hlocal rfl
      (by rw [hname]; decide) (by decide) hbelow (by simp) (by decide) hpath hresolution {}
  rw [← hiff.mpr hstays] at hregistered
  exact ⟨m, hmem, hname, hresolution, key, hkey, hregistered⟩

end Graph
end EsModules
