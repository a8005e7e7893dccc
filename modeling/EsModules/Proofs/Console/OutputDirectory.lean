import EsModules.Proofs.Config.Layering
import EsModules.Proofs.Console.Arguments
import EsModules.Proofs.Console.OutputPaths
import EsModules.Proofs.Console.Sessions
import EsModules.Proofs.Graph.Building

/-!
# Output stays in the output directory

Every file that a command writes stands below the output directory, with one exception: a
registration name that does not come from the command line is not checked, and where its `..` lead
out of the output directory, so does the file (`writes_below_outDir_iff`).
-/

namespace EsModules

open Path

/-! ### The programs of a graph -/

namespace Graph

variable {g : Graph}

/-- Loading entries is a call for each of them, and none has failed if the loading has not. -/
theorem Completed.addEntries (h : g.Completed) (entries : List String) :
    Ends (addEntries entries) g fun out g' => out.isOk = true → g'.Completed := by
  induction entries generalizing g with
  | nil => exact Ends.pure fun _ => h
  | cons entry rest ih =>
      have hentry : Ends (addEntry entry) g fun out g' => ∀ id, out = .ok id → g'.Completed :=
        fun _ hok => h.call (.addEntry entry) hok
      exact ends_addEntries_cons hentry (fun _ _ _ => nofun) fun id _ hcall => ih (hcall id rfl)

theorem Required.mem {m : GraphModule} (h : g.Required m) : m ∈ g.modules := by
  obtain ⟨id, -, a, ha, hneeds⟩ := h
  cases hneeds with
  | refl => exact mem_of_module? ha
  | tail _ hedge => exact mem_of_module? hedge.known

/-- The programs of a graph have names that go down only. -/
theorem Completed.not_mem_of_build
    (hg : g.Completed)
    {kind : GraphFormat}
    {format : FormatOptions}
    {programs : List OutputProgram}
    (h : g.build kind format = .ok programs) :
    ∀ program ∈ programs, ".." ∉ (segments program.name).dropLast := by
  obtain ⟨order, -, hmem, hprograms⟩ := (hg.built_of_build h).modules
  have hnames : programs.map (·.name) = order.map (·.name) := by
    have hsame := hprograms.imp fun _ _ hprogram => hprogram.2
    rwa [← List.forall₂_eq_eq_eq, List.forall₂_map_left_iff, List.forall₂_map_right_iff]
  intro program hprogram
  have hname : program.name ∈ order.map (·.name) := hnames ▸ List.mem_map_of_mem hprogram
  obtain ⟨m, hm, hsame⟩ := List.mem_map.mp hname
  obtain ⟨hrequired, hlocal⟩ := (hmem m).mp hm
  rw [← hsame]
  exact hg.reached.not_mem_of_local hrequired.mem hlocal

end Graph

namespace Console

open Session

/-! ### Configurations -/

namespace Invocation

/-- The directory that a command works in. -/
def directory (i : Invocation) (disk : Disk) : String :=
  (i.behind.value? .cwd).getD disk.directory

/-- The settings that the command line gives. -/
def overrides (i : Invocation) : ConfigOverrides :=
  match i.command with
  | .transpile => transpileOverrides i.behind
  | .build => buildOverrides i.behind
  | .check => {}

/-- The command works with a configuration that it loads. -/
def Loads
    (i : Invocation)
    (disk : Disk)
    (environment : List (String × String))
    (config : ProjectConfig) :
    Prop :=
  ProjectConfig.load disk environment
    ((i.value? .config).map fun p => resolvePath p (i.directory disk)) (i.directory disk)
    i.overrides = .ok config

/-- The output directory of a configuration. -/
def outDir (i : Invocation) (disk : Disk) (config : ProjectConfig) : String :=
  resolvePath config.outDir (i.directory disk)

/-- A single file is transpiled under a name that the command line does not give, and the name
leads out of the output directory. -/
def Strays (i : Invocation) (disk : Disk) (config : ProjectConfig) : Prop :=
  i.command = .transpile ∧ i.behind.value? .registryName = none ∧
    ∃ name, config.registryName = some name ∧
      ¬Confined (disk.placeOf (i.outDir disk config)) name

/-- The file at a path stands below the output directory. -/
def WritesBelow (i : Invocation) (disk : Disk) (config : ProjectConfig) (path : String) : Prop :=
  Below (disk.placeOf (i.outDir disk config)) (disk.placeOf path)

end Invocation

/-! ### The command `transpile` -/

variable {disk : Disk} {environment : List (String × String)} {allowed : String → Prop}

/-- The name that a file is transpiled under. -/
def TranspileJob.Names (job : TranspileJob) (file name : String) : Prop :=
  job.config.registryName = some name ∨
    job.config.registryName = none ∧
      registrationName? job.root (resolvePath file job.cwd) = some name

theorem ensures_nameOf (job : TranspileJob) (file : String) {before : Disk → Prop} :
    Ensures environment before (job.nameOf (resolvePath file job.cwd))
      (fun name left => job.Names file name ∧ before left) before := by
  unfold TranspileJob.nameOf
  split
  · rename_i name hname
    exact ensures_pure fun _ hdisk => ⟨.inl hname, hdisk⟩
  · rename_i hnone
    split
    · rename_i name hname
      exact ensures_pure fun _ hdisk => ⟨.inr ⟨hnone, hname⟩, hdisk⟩
    · exact ensures_throw fun _ hdisk => hdisk

/-- One file is written under its name, and reported with the path that it is written to. -/
theorem ensures_run_job
    {job : TranspileJob}
    {file : String}
    (h : ∀ name, job.Names file name →
      allowed (outputPath job.outDir name) ∧ allowed (mapPath (outputPath job.outDir name))) :
    Ensures environment (WroteOnly disk allowed) (job.run file)
      (fun summary left =>
        (job.Names file summary.name ∧ summary.path = outputPath job.outDir summary.name) ∧
          WroteOnly disk allowed left)
      (WroteOnly disk allowed) := by
  unfold TranspileJob.run
  extract_lets path
  refine (ensures_readFile path).bind fun text => ?_
  refine (ensures_nameOf job file).bind fun name => ensures_of_and fun hname => ?_
  extract_lets outPath options
  obtain ⟨hcode, hmap⟩ := h name hname
  have htranspile : Ensures environment (WroteOnly disk allowed)
      (orFail (.module path) (transpileFor job.target text options))
      (fun _ => WroteOnly disk allowed) (WroteOnly disk allowed) :=
    ensures_orFail (fun _ _ _ hdisk => hdisk) fun _ hdisk => hdisk
  refine htranspile.bind fun output => ?_
  refine (ensures_writeOutput output job.config.sourcemap hcode hmap).bind fun bytes => ?_
  exact ensures_pure fun _ hdisk => ⟨⟨hname, rfl⟩, hdisk⟩

/-- One file keeps what was known of the disk, whether or not it can be transpiled. -/
theorem keeps_run_job
    {job : TranspileJob}
    {file : String}
    (h : ∀ name, job.Names file name →
      allowed (outputPath job.outDir name) ∧ allowed (mapPath (outputPath job.outDir name))) :
    Ensures environment (WroteOnly disk allowed) (job.run file)
      (fun _ => WroteOnly disk allowed) (WroteOnly disk allowed) :=
  (ensures_run_job h).weaken (fun _ hdisk => hdisk) (fun _ _ hdisk => hdisk.2) fun _ hdisk => hdisk

/-- What is left when files have been tried one after the other, those behind a failed one too. -/
def TranspileJob.tried
    (job : TranspileJob)
    (environment : List (String × String))
    (files : List String)
    (s : State) :
    State :=
  files.foldl (fun s file => ((job.run file).outcome environment s).2) s

/-- Whichever files of a command are tried, in whatever order and also behind one that fails,
nothing is written but under their names. -/
theorem TranspileJob.wroteOnly_tried
    {job : TranspileJob}
    {files : List String}
    (h : ∀ file ∈ files, ∀ name, job.Names file name →
      allowed (outputPath job.outDir name) ∧ allowed (mapPath (outputPath job.outDir name)))
    {s : State}
    (hs : WroteOnly disk allowed s.disk) :
    WroteOnly disk allowed (job.tried environment files s).disk := by
  induction files generalizing s with
  | nil => exact hs
  | cons file files ih =>
      obtain ⟨hfile, hrest⟩ := List.forall_mem_cons.mp h
      exact ih hrest ((keeps_run_job hfile).left hs)

/-- All files are written under their names. -/
theorem ensures_transpileCommand
    {given : Given}
    {configPath : Option String}
    {cwd : String}
    (hcwd : cwd = (given.value? .cwd).getD disk.directory)
    (h : ∀ config, ProjectConfig.load disk environment
        (configPath.map fun p => resolvePath p cwd) cwd (transpileOverrides given) = .ok config →
      ∀ target file name, TranspileJob.Names ⟨config, target, cwd, resolvePath config.root cwd,
          resolvePath config.outDir cwd⟩ file name →
        allowed (outputPath (resolvePath config.outDir cwd) name) ∧
          allowed (mapPath (outputPath (resolvePath config.outDir cwd) name))) :
    Ensures environment (· = disk) (transpileCommand configPath given)
      (fun _ => WroteOnly disk allowed) (WroteOnly disk allowed) := by
  have hfailed : ∀ left, left = disk → WroteOnly disk allowed left := by
    rintro _ rfl
    exact wroteOnly_self
  refine (ensures_workingDirectory disk _).bind fun directory => ensures_of_and ?_
  rintro hdirectory
  rw [← hcwd] at hdirectory
  subst hdirectory
  extract_lets files load
  have hload : ∀ checked, Ensures environment (· = disk) (load checked)
      (fun _ => WroteOnly disk allowed) (WroteOnly disk allowed) := by
    intro checked
    refine (ensures_loadConfig wroteOnly_self _ _ _).bind fun config => ensures_of_and ?_
    intro hconfig
    extract_lets outDir translate
    have htranslate : ∀ target, Ensures environment (· = disk) (translate target)
        (fun _ => WroteOnly disk allowed) (WroteOnly disk allowed) := by
      intro target
      unfold translate
      extract_lets job write
      have hwrite : ∀ checked, Ensures environment (· = disk) (write checked)
          (fun _ => WroteOnly disk allowed) (WroteOnly disk allowed) := by
        intro checked
        have hjobs : Ensures environment (WroteOnly disk allowed) (files.mapM job.run)
            (fun _ => WroteOnly disk allowed) (WroteOnly disk allowed) :=
          ensures_mapM fun file _ => keeps_run_job (h config hconfig target file)
        refine (hjobs.weaken hfailed (fun _ _ h => h) fun _ h => h).bind fun outputs => ?_
        exact (ensures_tell _).bind fun _ => ensures_tell _
      exact .ite (ensures_throw hfailed) (hwrite ())
    split
    · exact htranslate _
    · exact ensures_throw hfailed
  exact .ite (ensures_throw hfailed) (hload ())

/-! ### The command `build` -/

/-- Loading a graph writes nothing, and the graph is complete. -/
theorem ensures_loadGraph (config : ProjectConfig) (cwd : String) {before : Disk → Prop} :
    Ensures environment before (loadGraph config cwd)
      (fun graph left => graph.Completed ∧ before left) before := by
  refine ensures_get fun s hs => ?_
  extract_lets start
  have hloaded := Graph.Completed.addEntries (g := start) (.empty _ _ _) config.entries
  unfold Graph.Ends Graph.outcome Graph.after at hloaded
  rcases hrun : (Graph.addEntries config.entries).run.run start with ⟨result, graph⟩
  rw [hrun] at hloaded
  have hresult : Ensures environment (· = s.disk) (orFail .graph result)
      (fun _ left => graph.Completed ∧ before left) before :=
    ensures_orFail (fun _ _ hok hdisk => ⟨hloaded (hok ▸ rfl), hdisk ▸ hs⟩)
      fun _ hdisk => hdisk ▸ hs
  exact hresult.bind fun _ => ensures_pure fun _ hdisk => hdisk

/-- All programs are written under their names. -/
theorem ensures_writePrograms
    {config : ProjectConfig}
    {outDir : String}
    {programs : List OutputProgram}
    (h : ∀ program ∈ programs, allowed (outputPath outDir program.name) ∧
      allowed (mapPath (outputPath outDir program.name))) :
    Ensures environment (WroteOnly disk allowed) (writePrograms config outDir programs)
      (fun _ => WroteOnly disk allowed) (WroteOnly disk allowed) := by
  refine ensures_mapM fun program hprogram => ?_
  obtain ⟨hcode, hmap⟩ := h program hprogram
  exact (ensures_writeOutput _ _ hcode hmap).bind fun _ => ensures_pure fun _ hdisk => hdisk

/-- The loader stands where a module of its name would. -/
theorem join_loaderFile (outDir : String) :
    join outDir loaderFile = outputPath outDir "modshift-runtime" := by
  have hsegments : segments "modshift-runtime" = ["modshift-runtime"] := by decide
  have hfile : isAbsolute loaderFile = false := by decide
  have hname : isAbsolute "modshift-runtime" = false := by decide
  have htext : loaderFile = "modshift-runtime" ++ ".js" := by decide
  rw [outputPath, hsegments, List.foldl_cons, List.foldl_nil, join_eq hfile, join_eq hname, htext]
  simp only [String.append_assoc]

theorem ensures_writeLoader
    {outDir : String}
    (config : ProjectConfig)
    (h : allowed (outputPath outDir "modshift-runtime")) :
    Ensures environment (WroteOnly disk allowed) (writeLoader config outDir)
      (fun _ => WroteOnly disk allowed) (WroteOnly disk allowed) := by
  rw [← join_loaderFile] at h
  refine .ite (ensures_pure fun _ hdisk => hdisk) ?_
  refine (ensures_ensureDirectory _).bind fun _ => ?_
  exact (ensures_writeFile _ h).bind fun _ => ensures_pure fun _ hdisk => hdisk

/-- All modules of the graph are written under their names, and the loader. -/
theorem ensures_buildCommand
    {given : Given}
    {configPath : Option String}
    {cwd : String}
    (hcwd : cwd = (given.value? .cwd).getD disk.directory)
    (h : ∀ config, ProjectConfig.load disk environment
        (configPath.map fun p => resolvePath p cwd) cwd (buildOverrides given) = .ok config →
      ∀ name, ".." ∉ (segments name).dropLast →
        allowed (outputPath (resolvePath config.outDir cwd) name) ∧
          allowed (mapPath (outputPath (resolvePath config.outDir cwd) name))) :
    Ensures environment (· = disk) (buildCommand configPath given)
      (fun _ => WroteOnly disk allowed) (WroteOnly disk allowed) := by
  have hfailed : ∀ left, left = disk → WroteOnly disk allowed left := by
    rintro _ rfl
    exact wroteOnly_self
  refine (ensures_workingDirectory disk _).bind fun directory => ensures_of_and ?_
  intro hdirectory
  rw [← hcwd] at hdirectory
  subst hdirectory
  refine (ensures_loadConfig wroteOnly_self _ _ _).bind fun config => ensures_of_and ?_
  intro hconfig
  extract_lets format outDir write check
  have hwrite : ∀ checked, Ensures environment (· = disk) (write checked)
      (fun _ => WroteOnly disk allowed) (WroteOnly disk allowed) := by
    intro checked
    have hload : Ensures environment (· = disk) (loadGraph config directory)
        (fun graph left => graph.Completed ∧ WroteOnly disk allowed left)
        (WroteOnly disk allowed) :=
      (ensures_loadGraph config directory).weaken hfailed (fun _ _ h => h) fun _ h => h
    refine hload.bind fun graph => ensures_of_and fun hgraph => ?_
    have hbuild : Ensures environment (WroteOnly disk allowed)
        (orFail .graph (graph.build format config.formatOptions))
        (fun programs left => (∀ program ∈ programs, ".." ∉ (segments program.name).dropLast) ∧
          WroteOnly disk allowed left)
        (WroteOnly disk allowed) :=
      ensures_orFail (fun _ _ hok hdisk => ⟨hgraph.not_mem_of_build hok, hdisk⟩) fun _ h => h
    refine hbuild.bind fun programs => ensures_of_and fun hnames => ?_
    refine (ensures_writePrograms fun program hprogram => h config hconfig _
      (hnames program hprogram)).bind fun outputs => ?_
    refine (ensures_writeLoader config (h config hconfig _ (by decide)).1).bind fun loader => ?_
    exact (ensures_tell _).bind fun _ => ensures_tell _
  exact .ite (ensures_throw hfailed) (.ite (ensures_throw hfailed) (hwrite ()))

/-! ### The command `check` -/

/-- Checking a configuration writes nothing. -/
theorem ensures_checkCommand (configPath : Option String) (given : Given) :
    Ensures environment (· = disk) (checkCommand configPath given) (fun _ => (· = disk))
      (· = disk) := by
  have hannounce : ∀ cwd, Ensures environment (· = disk) (announceConfig configPath cwd)
      (fun _ => (· = disk)) (· = disk) := by
    intro cwd
    refine ensures_get fun s hs => ?_
    rw [← hs]
    extract_lets
    split
    · exact ensures_tell _
    · exact ensures_tell _
  have hgraph : ∀ config cwd, Ensures environment (· = disk) (checkGraph config cwd)
      (fun _ => (· = disk)) (· = disk) := by
    intro config cwd
    refine (ensures_loadGraph config cwd).bind fun graph => ensures_of_and fun _ => ?_
    refine (ensures_tell _).bind fun _ => ?_
    exact .ite (ensures_tell _) (ensures_pure fun _ hdisk => hdisk)
  refine .ite (ensures_print _) ?_
  refine (ensures_workingDirectory disk _).bind fun cwd => ensures_of_and fun _ => ?_
  refine (hannounce cwd).bind fun _ => ?_
  refine .bind (ensures_loadConfig ?_ _ _ _) fun config => ensures_of_and fun _ => ?_
  · rfl
  refine (ensures_tell _).bind fun _ => ?_
  exact .ite ((hgraph config cwd).bind fun _ => ensures_print _) (ensures_print _)

/-! ### All commands -/

namespace Invocation

/-- An output file stands below the output directory if its name is confined to it. -/
theorem writesBelow_iff
    {text : String}
    (hslash : '/' ∉ text.toList)
    (hchar : ∃ c ∈ text.toList, c ≠ '.')
    (hdirectory : disk.directory ≠ "")
    (i : Invocation)
    (config : ProjectConfig)
    (name : String) :
    i.WritesBelow disk config ((segments name).foldl join (i.outDir disk config) ++ text) ↔
      Confined (disk.placeOf (i.outDir disk config)) name := by
  have hne : i.outDir disk config ≠ "" := clean_ne_empty _
  unfold WritesBelow Disk.placeOf
  rw [below_clean_iff, confined_clean_iff, join_output hslash hne,
    below_output_iff hslash hchar (join_ne_empty hdirectory _)]

/-- A name that strays has a step up in its directory part. -/
theorem Strays.mem
    {i : Invocation}
    {config : ProjectConfig}
    (h : i.Strays disk config) :
    ∃ name, config.registryName = some name ∧ ".." ∈ (segments name).dropLast := by
  obtain ⟨-, -, name, hname, hconfined⟩ := h
  refine ⟨name, hname, ?_⟩
  by_contra hup
  exact hconfined (confined_of_not_mem hup _)

/-- A path that a command may write to: it is below the output directory unless the name strays. -/
def Allows (i : Invocation) (disk : Disk) (environment : List (String × String)) (path : String) :
    Prop :=
  ∃ config, i.Loads disk environment config ∧
    (i.WritesBelow disk config path ↔ ¬i.Strays disk config)

/-- Both files of a name are below the output directory, or none. -/
theorem allows_output
    {i : Invocation}
    {config : ProjectConfig}
    {name : String}
    (hdirectory : disk.directory ≠ "")
    (hload : i.Loads disk environment config)
    (h : Confined (disk.placeOf (i.outDir disk config)) name ↔ ¬i.Strays disk config) :
    i.Allows disk environment (outputPath (i.outDir disk config) name) ∧
      i.Allows disk environment (mapPath (outputPath (i.outDir disk config) name)) := by
  have hmap : mapPath (outputPath (i.outDir disk config) name) =
      (segments name).foldl join (i.outDir disk config) ++ ".js.map" := by
    rw [mapPath, outputPath, String.append_assoc]
    rfl
  refine ⟨⟨config, hload, ?_⟩, ⟨config, hload, ?_⟩⟩
  · exact (writesBelow_iff (by decide) ⟨'j', by decide⟩ hdirectory i config name).trans h
  · rw [hmap]
    exact (writesBelow_iff (by decide) ⟨'j', by decide⟩ hdirectory i config name).trans h

/-- The name of a single file is confined unless it strays. -/
theorem confined_iff_of_names
    {words : List String}
    {i : Invocation}
    {config : ProjectConfig}
    {target : Target}
    {cwd root outDir file name : String}
    (hparse : parseArguments words = .ok i)
    (hcommand : i.command = .transpile)
    (hload : i.Loads disk environment config)
    (hname : TranspileJob.Names ⟨config, target, cwd, root, outDir⟩ file name) :
    Confined (disk.placeOf (i.outDir disk config)) name ↔ ¬i.Strays disk config := by
  rcases hname with hname | ⟨hnone, hname⟩
  · cases hgiven : i.behind.value? .registryName with
    | some given =>
        -- The command line wins, and it has checked the name.
        have hoverrides : ProjectConfig.Setting.registryName.given i.overrides =
            some (some given) := by
          rw [overrides, hcommand]
          exact congrArg (Option.map some) hgiven
        have hget := ProjectConfig.get_of_given hload hoverrides
        have hsame : name = given := Option.some_inj.mp (hname.symm.trans hget)
        obtain ⟨checked, hchecked⟩ := checkRegistryName_of_parseArguments hparse hgiven
        refine iff_of_true ?_ ?_
        · rw [hsame]
          exact confined_of_not_mem (not_mem_of_checkRegistryName hchecked) _
        · rintro ⟨-, hnot, -⟩
          rw [hgiven] at hnot
          cases hnot
    | none =>
        rw [Strays]
        constructor
        · rintro hconfined ⟨-, -, other, hother, hstrays⟩
          cases hname.symm.trans hother
          exact hstrays hconfined
        · intro hstrays
          by_contra hconfined
          exact hstrays ⟨hcommand, hgiven, name, hname, hconfined⟩
  · refine iff_of_true (confined_of_not_mem (not_mem_of_registrationName? hname) _) ?_
    rintro ⟨-, -, other, hother, -⟩
    cases hnone.symm.trans hother

/-- A command writes to the paths that it may write to, also where it fails. -/
theorem ensures_run
    {words : List String}
    {i : Invocation}
    (hdirectory : disk.directory ≠ "")
    (hparse : parseArguments words = .ok i) :
    Ensures environment (· = disk) i.run (fun _ => WroteOnly disk (i.Allows disk environment))
      (WroteOnly disk (i.Allows disk environment)) := by
  have hcwd : i.directory disk = (i.behind.value? .cwd).getD disk.directory := rfl
  cases hcommand : i.command with
  | transpile =>
      have hrun : i.run = transpileCommand (i.value? .config) i.behind := by
        rw [run, hcommand]
      have hoverrides : i.overrides = transpileOverrides i.behind := by
        rw [overrides, hcommand]
      rw [hrun]
      refine ensures_transpileCommand hcwd ?_
      intro config hconfig target file name hname
      have hload : i.Loads disk environment config := by
        rw [Loads, hoverrides]
        exact hconfig
      exact allows_output hdirectory hload (confined_iff_of_names hparse hcommand hload hname)
  | build =>
      have hrun : i.run = buildCommand (i.value? .config) i.behind := by
        rw [run, hcommand]
      have hoverrides : i.overrides = buildOverrides i.behind := by
        rw [overrides, hcommand]
      rw [hrun]
      refine ensures_buildCommand hcwd ?_
      intro config hconfig name hname
      have hload : i.Loads disk environment config := by
        rw [Loads, hoverrides]
        exact hconfig
      refine allows_output hdirectory hload (iff_of_true (confined_of_not_mem hname _) ?_)
      rintro ⟨htranspile, -⟩
      cases hcommand.symm.trans htranspile
  | check =>
      have hrun : i.run = checkCommand (i.value? .config) i.behind := by
        rw [run, hcommand]
      rw [hrun]
      refine (ensures_checkCommand _ _).weaken (fun _ h => h) ?_ ?_
      · rintro _ _ rfl
        exact wroteOnly_self
      · rintro _ rfl
        exact wroteOnly_self

end Invocation

/-- A command line changes no files but those that it writes, also where it fails, and all of these
stand below the output directory of the configuration that is loaded.  The exception is a
registration name that the command line does not give and that leads up: then none of them does. -/
theorem writes_below_outDir_iff
    (disk : Disk)
    (environment : List (String × String))
    (onTerminal : Bool)
    (words : List String)
    (hdirectory : isAbsolute disk.directory = true) :
    ∃ paths,
      Disk.Written disk paths (run disk environment onTerminal words).state.disk ∧
      (∀ place, (∀ path ∈ paths, place ≠ disk.placeOf path) → ∀ text,
        ((run disk environment onTerminal words).state.disk.entryAt? place = some (.file text) ↔
          disk.entryAt? place = some (.file text))) ∧
      ∀ path ∈ paths, ∃ i config,
        parseArguments words = .ok i ∧
        i.Loads disk environment config ∧
        (i.WritesBelow disk config path ↔ ¬i.Strays disk config) ∧
        (i.Strays disk config →
          ∃ name, config.registryName = some name ∧ ".." ∈ (segments name).dropLast) := by
  have hne : disk.directory ≠ "" := by
    intro hempty
    rw [hempty] at hdirectory
    cases hdirectory
  obtain ⟨paths, hwritten, hpaths⟩ : ∃ paths,
      Disk.Written disk paths (run disk environment onTerminal words).state.disk ∧
      ∀ path ∈ paths, ∃ i, parseArguments words = .ok i ∧ i.Allows disk environment path := by
    unfold run
    split
    · exact ⟨[], .start, nofun⟩
    · rename_i i hparse
      have hrun : Ensures environment (· = disk) i.run _ _ := Invocation.ensures_run hne hparse
      obtain ⟨paths, hwritten, hpaths⟩ := hrun.left (s := ⟨disk, "", []⟩) rfl
      exact ⟨paths, hwritten, fun path hpath => ⟨i, hparse, hpaths path hpath⟩⟩
  refine ⟨paths, hwritten, (hwritten.unchanged hdirectory).2, ?_⟩
  intro path hpath
  obtain ⟨i, hparse, config, hload, hbelow⟩ := hpaths path hpath
  exact ⟨i, config, hparse, hload, hbelow, fun hstrays => hstrays.mem⟩

/-- A directory with a file, and with a registration name that leads up in its configuration. -/
def straying : Disk where
  directory := "/work"
  entries :=
    [("/work", .directory), ("/work/a.js", .file (some "")),
      ("/work/modshift.config.json",
        .file (some "\x7b\"registryName\": \"../evil\", \"sourcemap\": \"none\"\x7d"))]

/-- A command line that gives the name of the file itself. -/
def namedWords : List String :=
  ["transpile", "a.js", "--registry-name", "app/a"]

/-- A name on the command line keeps the file below the output directory. -/
theorem writes_below_outDir_iff_named :
    ∃ paths,
      Disk.Written straying paths (run straying [] false namedWords).state.disk ∧
      (∃ path ∈ paths, straying.placeOf path = "/work/dist/app/a.js") ∧
      ∀ path ∈ paths, ∃ i config,
        parseArguments namedWords = .ok i ∧
        i.Loads straying [] config ∧
        i.WritesBelow straying config path := by
  have hparse : parseArguments namedWords =
      .ok ⟨.transpile, ⟨[], []⟩, ⟨[(.registryName, "app/a")], ["a.js"]⟩⟩ := by
    decide +kernel
  have hbefore : straying.entryAt? "/work/dist/app/a.js" = none := by
    decide +kernel
  have hafter : ((run straying [] false namedWords).state.disk.entryAt?
      "/work/dist/app/a.js").any (· != .directory) = true := by
    simp +unfoldPartialApp only [run, Invocation.run, transpileCommand, TranspileJob.run,
      Transpile.transpileFor_eq]
    decide +kernel
  obtain ⟨paths, hwritten, hfiles, hpaths⟩ :=
    writes_below_outDir_iff straying [] false namedWords (by decide)
  refine ⟨paths, hwritten, ?_, ?_⟩
  · by_contra hnone
    obtain ⟨entry, hentry, hkind⟩ := (Option.any_eq_true _ _).mp hafter
    have hsame := hfiles "/work/dist/app/a.js" fun path hpath hplace =>
      hnone ⟨path, hpath, hplace.symm⟩
    rw [hbefore] at hsame
    cases entry with
    | directory => cases hkind
    | file text => cases (hsame text).mp hentry
  · intro path hpath
    obtain ⟨i, config, hi, hload, hbelow, -⟩ := hpaths path hpath
    refine ⟨i, config, hi, hload, hbelow.mpr ?_⟩
    cases hparse.symm.trans hi
    rintro ⟨-, hnot, -⟩
    cases hnot

/-- A name from the configuration file is not checked, and the file is written beside the output
directory. -/
theorem evil_beside_outDir :
    ∃ i config,
      parseArguments ["transpile", "a.js"] = .ok i ∧
      i.Loads straying [] config ∧
      straying.placeOf (i.outDir straying config) = "/work/dist" ∧
      straying.entryAt? "/work/evil.js" = none ∧
      (run straying [] false ["transpile", "a.js"]).state.disk.isFile "/work/evil.js" = true ∧
      ¬Below "/work/dist" "/work/evil.js" := by
  refine ⟨⟨.transpile, ⟨[], []⟩, ⟨[], ["a.js"]⟩⟩,
    { registryName := some "../evil", sourcemap := .none }, ?_, ?_, ?_, ?_, ?_, ?_⟩
  · decide +kernel
  · have hload : ProjectConfig.load straying [] none "/work" {} =
        .ok { registryName := some "../evil", sourcemap := .none } := by
      decide +kernel
    exact hload
  · decide +kernel
  · decide +kernel
  · simp +unfoldPartialApp only [run, Invocation.run, transpileCommand, TranspileJob.run,
      Transpile.transpileFor_eq]
    decide +kernel
  · rintro ⟨names, -, hsteps⟩
    have hevil : normalize (components "/work/evil.js") =
        [.root, .normal "work"] ++ [.normal "evil.js"] := by
      decide +kernel
    have hdist : normalize (components "/work/dist") =
        [.root, .normal "work"] ++ [.normal "dist"] := by
      decide +kernel
    rw [hevil, hdist, List.append_assoc] at hsteps
    have hlast := (List.cons.inj (List.append_cancel_left hsteps)).1
    exact absurd hlast (by decide)

end Console
end EsModules
