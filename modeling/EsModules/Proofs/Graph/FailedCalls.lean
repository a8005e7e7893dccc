import EsModules.Proofs.Graph.Loading

/-!
# Failed calls

A call that fails keeps what was in the graph, but not always to itself: once the file that it loads
first has been read, the module of that file and those entered after it stay, and this first one
stays unresolved.  A call that is repeated finds it there and succeeds.
-/

namespace EsModules
namespace Graph

variable {g g' : Graph} {depth : Nat} {path : String} {out : Except GraphError ModuleId}

/-- A call that loads modules into a graph. -/
inductive Call where
  | addEntry (path : String)
  | resolveModule (specifier : String) (importer : ModuleId)

namespace Call

/-- What the call does. -/
def step : Call → GraphStep ModuleId
  | addEntry path => Graph.addEntry path
  | resolveModule specifier importer => Graph.resolveModule specifier importer

/-- The file that the call loads first. -/
def file? (g : Graph) : Call → Option String
  | addEntry path => g.files.lookup? (Path.clean (Path.join g.root path))
  | resolveModule specifier importer =>
      match g.resolution? specifier importer with
      | some (.file path) => some path
      | _ => none

/-- The file that the call loads first gives a module. -/
def Reads (call : Call) (g : Graph) : Prop :=
  ∃ path id m,
    call.file? g = some path ∧ ModuleId.ofPath path = .ok id ∧ g.readModule id path = .ok m

theorem file?_modules (call : Call) (g : Graph) (modules : List GraphModule) :
    call.file? { g with modules := modules } = call.file? g := by
  cases call <;> rfl

/-- Without a file to load, a call that fails changes nothing. -/
theorem ends_of_file?_none
    {call : Call}
    (hfile : call.file? g = none) :
    Ends call.step g fun out g' => out.isOk = false → g' = g := by
  cases call with
  | addEntry path =>
      apply Ends.get
      split
      · exact Ends.throw fun _ => rfl
      · rename_i file hlookup
        rw [file?, hlookup] at hfile
        cases hfile
  | resolveModule specifier importer =>
      apply (runs_resolveModule specifier importer g).mono
      intro out g' hruns
      cases hruns with
      | unresolved hto => exact fun _ => rfl
      | provided hto hm => exact fun _ => rfl
      | provide hto hnew => nofun
      | file hto hload =>
          rw [file?, hto] at hfile
          cases hfile

/-- A call answers what loading its first file answers; if that fails, so does the call, and
nothing else happens. -/
theorem ends_of_file?
    {call : Call}
    (hfile : call.file? g = some path) :
    Ends call.step g fun out g' =>
      ∃ loaded, Runs g.loadingDepth (.load path) g out loaded ∧
        (out.isOk = false → g' = loaded) := by
  cases call with
  | addEntry entry =>
      apply Ends.get
      have hlookup : g.files.lookup? (Path.clean (Path.join g.root entry)) = some path := hfile
      rw [hlookup]
      apply (runs_loadLocal g.loadingDepth path g).bind
      · intro e g' hruns
        exact ⟨g', hruns, fun _ => rfl⟩
      · intro id g' hruns
        apply Ends.modify
        exact Ends.pure ⟨g', hruns, nofun⟩
  | resolveModule specifier importer =>
      apply (runs_resolveModule specifier importer g).mono
      intro out g' hruns
      cases hruns with
      | unresolved hto =>
          rw [file?, hto] at hfile
          cases hfile
      | provided hto hm =>
          rw [file?, hto] at hfile
          cases hfile
      | provide hto hnew =>
          rw [file?, hto] at hfile
          cases hfile
      | file hto hload =>
          rw [file?, hto] at hfile
          cases hfile
          exact ⟨g', hload, fun _ => rfl⟩

end Call

/-! ### Loading a file -/

/-- A file that was loaded before is not loaded again. -/
theorem Runs.of_cached
    {id : ModuleId}
    {m : GraphModule}
    (h : Runs (depth + 1) (.load path) g out g')
    (hid : ModuleId.ofPath path = .ok id)
    (hm : g.module? id = some m) :
    out = .ok id := by
  cases h with
  | refused hid' =>
      rw [hid] at hid'
      cases hid'
  | cached hid' _ =>
      rw [hid] at hid'
      cases hid'
      rfl
  | unreadable hid' hnew _ =>
      rw [hid] at hid'
      cases hid'
      rw [hm] at hnew
      cases hnew
  | load hid' hnew _ _ =>
      rw [hid] at hid'
      cases hid'
      rw [hm] at hnew
      cases hnew

/-- Loading fails at the file itself, and then nothing happens, or behind it, and then its module is
the first one that is added and is not resolved. -/
theorem Runs.load_error
    {e : GraphError}
    (h : Runs (depth + 1) (.load path) g (.error e) g') :
    (g' = g ∧ ∀ id m, ModuleId.ofPath path = .ok id → g.readModule id path ≠ .ok m) ∨
      ∃ id m first more,
        ModuleId.ofPath path = .ok id ∧ g.readModule id path = .ok m ∧
        g' = { g with modules := g.modules ++ first :: more } ∧
        first.id = id ∧ first.resolved = false := by
  cases h with
  | refused hid =>
      left
      refine ⟨rfl, ?_⟩
      intro id m hid'
      rw [hid] at hid'
      cases hid'
  | unreadable hid _ hread =>
      left
      refine ⟨rfl, ?_⟩
      intro id m hid'
      rw [hid] at hid'
      cases hid'
      rw [hread]
      nofun
  | @load _ _ id m _ _ _ hid hnew hread hlink =>
      right
      obtain ⟨links, added, hg', -, -⟩ :=
        hlink.leaves g.modules m [] rfl (alone_of_readModule hnew hread)
      refine ⟨id, m, _, added, hid, hread, hg', ?_, ?_⟩
      · show m.id = id
        exact id_of_readModule hread
      · obtain ⟨_, _, _, _, _, _, rfl⟩ := readModule_eq_ok hread
        rfl

/-- A call that fails leaves the entries and the modules that were there as they were.  It adds none
if and only if its own file gives no module, and then it fails again with the same answer.
Otherwise the module of its file is the first one added and stays unresolved, and the call succeeds
when it is repeated. -/
theorem failed_call_leaves
    (call : Call)
    (g : Graph)
    {e : GraphError}
    (h : outcome call.step g = .error e) :
    ∃ added,
      after call.step g = { g with modules := g.modules ++ added } ∧
      (added = [] ↔ ¬call.Reads g) ∧
      (added = [] ∧ outcome call.step (after call.step g) = .error e ∨
        ∃ m more,
          added = m :: more ∧ m.resolved = false ∧
          outcome call.step (after call.step g) = .ok m.id) := by
  cases hfile : call.file? g with
  | none =>
      have hafter : after call.step g = g := by
        have hends := Call.ends_of_file?_none hfile
        unfold Ends at hends
        rw [h] at hends
        exact hends rfl
      refine ⟨[], ?_, ?_, .inl ⟨rfl, ?_⟩⟩
      · rw [hafter]
        simp
      · refine iff_of_true rfl ?_
        rintro ⟨path, id, m, hpath, -, -⟩
        rw [hfile] at hpath
        cases hpath
      · rw [hafter, h]
  | some path =>
      have hends := Call.ends_of_file? hfile
      unfold Ends at hends
      rw [h] at hends
      obtain ⟨loaded, hruns, hafter⟩ := hends
      rw [hafter rfl]
      rcases hruns.load_error with ⟨rfl, hread⟩ | ⟨id, m, first, more, hid, hread, rfl, rfl, hfirst⟩
      · refine ⟨[], by simp, ?_, .inl ⟨rfl, h⟩⟩
        refine iff_of_true rfl ?_
        rintro ⟨path', id, m, hpath, hid, hm⟩
        rw [hfile] at hpath
        cases hpath
        exact hread id m hid hm
      · refine ⟨first :: more, rfl, ?_, .inr ⟨first, more, rfl, hfirst, ?_⟩⟩
        · refine iff_of_false (by simp) ?_
          intro hnot
          exact hnot ⟨path, first.id, m, hfile, hid, hread⟩
        · -- the file is the same, and its module is in the graph now
          have hagain := Call.ends_of_file?
            ((call.file?_modules g (g.modules ++ first :: more)).trans hfile)
          obtain ⟨_, hruns, -⟩ := hagain
          obtain ⟨known, hknown⟩ : ∃ known,
              module? { g with modules := g.modules ++ first :: more } first.id = some known :=
            exists_module?_iff.mpr ⟨first, by simp, ModuleId.same_iff.mpr rfl⟩
          exact hruns.of_cached hid hknown

/-- An entry imports a file that is there and one that is not. -/
def danglingImport : Graph :=
  .empty "/p"
    (.ofTexts
      [("/p/main.js", "import './a';\nimport './gone';\n"), ("/p/a.js", "export var x = 1;\n")])
    (Resolver.defaults [])

theorem run_danglingImport :
    outcome (addEntry "main") danglingImport = .error (.unresolvedImport "./gone" "main") ∧
    ((after (addEntry "main") danglingImport).modules.map fun m =>
      (m.id.path, m.resolved, m.dependencies)) =
        [("/p/main.js", false, [("./a", ⟨"/p/a.js"⟩)]), ("/p/a.js", true, [])] ∧
    outcome (addEntry "main") (after (addEntry "main") danglingImport) = .ok ⟨"/p/main.js"⟩ := by
  decide +kernel

/-- The module of the entry stays in the graph and is not resolved. -/
theorem failed_call_leaves_danglingImport :
    ∃ m more,
      after (addEntry "main") danglingImport = { danglingImport with modules := m :: more } ∧
      m.resolved = false ∧
      outcome (addEntry "main") (after (addEntry "main") danglingImport) = .ok m.id := by
  obtain ⟨hfails, -, hagain⟩ := run_danglingImport
  obtain ⟨added, hafter, -, ⟨-, hsame⟩ | ⟨m, more, rfl, hm, hok⟩⟩ :=
    failed_call_leaves (.addEntry "main") danglingImport hfails
  · cases hagain.symm.trans hsame
  · exact ⟨m, more, hafter, hm, hok⟩

/-- The call fails, and it succeeds when it is repeated; there are modules in the graph that were
not there before it. -/
theorem failed_call_repeats_danglingImport :
    danglingImport.Reached ∧ danglingImport.modules = [] ∧
    outcome (addEntry "main") danglingImport = .error (.unresolvedImport "./gone" "main") ∧
    ((after (addEntry "main") danglingImport).modules.map fun m =>
      (m.id.path, m.resolved, m.dependencies)) =
        [("/p/main.js", false, [("./a", ⟨"/p/a.js"⟩)]), ("/p/a.js", true, [])] ∧
    outcome (addEntry "main") (after (addEntry "main") danglingImport) = .ok ⟨"/p/main.js"⟩ :=
  ⟨.empty _ _ _, rfl, run_danglingImport⟩

end Graph
end EsModules
