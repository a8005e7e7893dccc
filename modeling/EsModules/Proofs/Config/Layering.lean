import EsModules.Proofs.Catalog
import EsModules.Proofs.Config.Reading
import EsModules.Proofs.Config.Shadowing

/-!
# Which layer a setting comes from

Every setting of a configuration that is loaded is the one of the highest layer that sets it, or
the default if none does (`load_eq_highest`).  The exception is a dictionary that the layers below
shadow.
-/

namespace EsModules

open Config

namespace ProjectConfig

/-! ### Settings -/

/-- The settings of a project. -/
inductive Setting where
  | format
  | registryName
  | moduleName
  | dirPath
  | root
  | entries
  | external
  | outDir
  | sourcemap
  | indent
  | quote
  | runtime
  deriving DecidableEq, Repr, Inhabited

namespace Setting

/-- The key of a setting. -/
def key : Setting → String
  | format => "format"
  | registryName => "registryName"
  | moduleName => "moduleName"
  | dirPath => "dirPath"
  | root => "root"
  | entries => "entries"
  | external => "external"
  | outDir => "outDir"
  | sourcemap => "sourcemap"
  | indent => "indent"
  | quote => "quote"
  | runtime => "runtime"

/-- What a setting holds. -/
abbrev Content : Setting → Type
  | format => OutputFormat
  | registryName | moduleName | dirPath => Option String
  | root | outDir => String
  | entries | external => List String
  | sourcemap => SourceMapMode
  | indent => IndentStyle
  | quote => Text.QuoteStyle
  | runtime => Bool

/-- The setting in a configuration. -/
def get : (s : Setting) → ProjectConfig → s.Content
  | format, c => c.format
  | registryName, c => c.registryName
  | moduleName, c => c.moduleName
  | dirPath, c => c.dirPath
  | root, c => c.root
  | entries, c => c.entries
  | external, c => c.external
  | outDir, c => c.outDir
  | sourcemap, c => c.sourcemap
  | indent, c => c.indent
  | quote, c => c.quote
  | runtime, c => c.runtime

/-- The setting on a command line, if it is given there. -/
def given : (s : Setting) → ConfigOverrides → Option s.Content
  | format, o => o.format
  | registryName, o => o.registryName.map some
  | moduleName, o => o.moduleName.map some
  | dirPath, o => o.dirPath.map some
  | root, o => o.root
  | entries, o => o.entries
  | external, o => o.external
  | outDir, o => o.outDir
  | sourcemap, o => o.sourcemap
  | indent, _ => none
  | quote, _ => none
  | runtime, o => o.runtime

/-- The usual name of the variable of a setting. -/
def variableName : Setting → String
  | format => "MODSHIFT_FORMAT"
  | registryName => "MODSHIFT_REGISTRY_NAME"
  | moduleName => "MODSHIFT_MODULE_NAME"
  | dirPath => "MODSHIFT_DIR_PATH"
  | root => "MODSHIFT_ROOT"
  | entries => "MODSHIFT_ENTRIES"
  | external => "MODSHIFT_EXTERNAL"
  | outDir => "MODSHIFT_OUT_DIR"
  | sourcemap => "MODSHIFT_SOURCEMAP"
  | indent => "MODSHIFT_INDENT"
  | quote => "MODSHIFT_QUOTE"
  | runtime => "MODSHIFT_RUNTIME"

/-- Reads a setting. -/
def decoder : (s : Setting) → Decoder s.Content
  | format => .word "OutputFormat" (·.name) OutputFormat.all
  | registryName | moduleName | dirPath => .optional .text
  | root | outDir => .path
  | entries => .list .path
  | external => .list .text
  | sourcemap => .word "SourceMapMode" (·.name) SourceMapMode.all
  | indent => indentDecoder
  | quote => .word "QuoteStyle" quoteName [.single, .double]
  | runtime => .boolean

/-- A setting as a value. -/
def value : (s : Setting) → s.Content → Value
  | format, f => .string f.name
  | registryName, text | moduleName, text | dirPath, text => (text.map .string).getD .unit
  | root, path | outDir, path => .string path
  | entries, items | external, items => texts items
  | sourcemap, mode => .string mode.name
  | indent, style => indentValue style
  | quote, style => .string (quoteName style)
  | runtime, flag => .bool flag

theorem layered_decoder : (s : Setting) → s.decoder.Layered
  | format | sourcemap | quote => Decoder.layered_word _ _ _
  | registryName | moduleName | dirPath => (Decoder.flat_textAs _).optional.layered
  | root | outDir => (Decoder.flat_textAs _).layered
  | entries | external => (Decoder.flat_list _).layered
  | indent => Decoder.layered_indent
  | runtime => Decoder.flat_boolean.layered

theorem variableField?_variableName (s : Setting) :
    Environment.variableField? s.variableName = some s.key := by
  cases s <;> decide

/-- Every setting is read by itself. -/
theorem decode_eq_ok
    {fields : Fields}
    {config : ProjectConfig}
    (h : decode fields = .ok config)
    (s : Setting) :
    fields.decode s.key (s.get {}) s.decoder = .ok (s.get config) := by
  obtain ⟨dirPath, hdirPath, h⟩ := bind_eq_ok.mp h
  obtain ⟨entries, hentries, h⟩ := bind_eq_ok.mp h
  obtain ⟨external, hexternal, h⟩ := bind_eq_ok.mp h
  obtain ⟨format, hformat, h⟩ := bind_eq_ok.mp h
  obtain ⟨indent, hindent, h⟩ := bind_eq_ok.mp h
  obtain ⟨moduleName, hmoduleName, h⟩ := bind_eq_ok.mp h
  obtain ⟨outDir, houtDir, h⟩ := bind_eq_ok.mp h
  obtain ⟨quote, hquote, h⟩ := bind_eq_ok.mp h
  obtain ⟨registryName, hregistryName, h⟩ := bind_eq_ok.mp h
  obtain ⟨root, hroot, h⟩ := bind_eq_ok.mp h
  obtain ⟨runtime, hruntime, h⟩ := bind_eq_ok.mp h
  obtain ⟨sourcemap, hsourcemap, h⟩ := bind_eq_ok.mp h
  cases h
  cases s <;> assumption

end Setting

/-! ### The layers -/

theorem sorted_entry?
    {key : String}
    {value : Option Value}
    (h : ∀ v, value = some v → v.Sorted) :
    ∀ entry ∈ entry? key value, entry.2.Sorted := by
  cases value with
  | none => exact nofun
  | some v => exact List.forall_mem_singleton.mpr (h v rfl)

theorem layer_overrides (o : ConfigOverrides) : o.fields.Layer := by
  have hmap : ∀ {α : Type} {key : String} (given : Option α) (f : α → Value), (∀ a, (f a).Sorted) →
      ∀ entry ∈ entry? key (given.map f), entry.2.Sorted := by
    intro α key given f hf
    refine sorted_entry? fun v hv => ?_
    obtain ⟨a, _, rfl⟩ := Option.map_eq_some_iff.mp hv
    exact hf a
  apply Fields.layer_ofList
  simp only [List.forall_mem_append]
  refine ⟨⟨⟨⟨⟨⟨⟨⟨⟨?_, ?_⟩, ?_⟩, ?_⟩, ?_⟩, ?_⟩, ?_⟩, ?_⟩, ?_⟩, ?_⟩
  all_goals exact hmap _ _ fun _ => nofun

theorem layer_defaults : ({} : ProjectConfig).fields.Layer := by
  apply Fields.layer_ofList
  iterate 3 refine List.forall_mem_cons.mpr ⟨nofun, ?_⟩
  refine List.forall_mem_cons.mpr ⟨nofun, ?_⟩
  refine List.forall_mem_cons.mpr ⟨Value.sorted_dict (List.pairwise_singleton _ _), ?_⟩
  iterate 2 refine List.forall_mem_cons.mpr ⟨nofun, ?_⟩
  exact nofun

theorem get?_foldl_entry? (fields : Fields) (key other : String) (value : Option Value) :
    Fields.get? (( entry? key value).foldl (fun fields (key, value) => Fields.set fields key value)
      fields) other =
    if other = key then value.or (fields.get? other) else fields.get? other := by
  cases value with
  | none => exact (ite_self _).symm
  | some v => exact Fields.get?_set fields key other v

/-- What is given on the command line is set there, and nothing else is. -/
theorem get?_overrides (o : ConfigOverrides) (s : Setting) :
    o.fields.get? s.key = (s.given o).map s.value := by
  have hempty : Fields.get? [] s.key = none := rfl
  simp only [ConfigOverrides.fields, Fields.ofList, List.foldl_append, get?_foldl_entry?, hempty]
  cases s with
  | registryName | moduleName | dirPath =>
      simp [Setting.key, Setting.given, Setting.value, Function.comp_def]
  | indent | quote => simp [Setting.key, Setting.given]
  | format | root | entries | external | outDir | sourcemap | runtime =>
      simp only [Setting.key, String.reduceEq, if_false, if_true, Option.or_none]
      rfl

theorem decoder_texts (expected : String) (items : List String) :
    Decoder.list (.textAs expected) (texts items) = .ok items := by
  suffices h : ∀ index, Decoder.items (.textAs expected) index (items.map .string) = .ok items from
    h 0
  induction items with
  | nil => exact fun _ => rfl
  | cons item items ih =>
      intro index
      rw [List.map_cons, Decoder.items, ih]
      rfl

/-- What is given on the command line is read back. -/
theorem decoder_value_of_given
    {o : ConfigOverrides}
    {s : Setting}
    {a : s.Content}
    (h : s.given o = some a) :
    s.decoder (s.value a) = .ok a := by
  cases s with
  | format => cases a <;> rfl
  | sourcemap => cases a <;> rfl
  | registryName | moduleName | dirPath =>
      obtain ⟨text, _, rfl⟩ := Option.map_eq_some_iff.mp h
      rfl
  | root | outDir | runtime => rfl
  | entries | external => exact decoder_texts _ _
  | indent | quote => cases h

theorem value_ne_dict_of_given
    {o : ConfigOverrides}
    {s : Setting}
    {a : s.Content}
    (h : s.given o = some a)
    (fields : Fields) :
    s.value a ≠ .dict fields := by
  cases s with
  | registryName | moduleName | dirPath =>
      obtain ⟨text, _, rfl⟩ := Option.map_eq_some_iff.mp h
      exact nofun
  | indent | quote => cases h
  | format | root | entries | external | outDir | sourcemap | runtime => exact nofun

/-! ### Merging -/

theorem layer_foldl_over
    {layers : List Fields}
    {fields : Fields}
    (hlayers : ∀ layer ∈ layers, layer.Layer)
    (h : fields.Layer) :
    Fields.Layer (layers.foldl (fun lower upper => Fields.over upper lower) fields) := by
  induction layers generalizing fields with
  | nil => exact h
  | cons layer layers ih =>
      obtain ⟨hlayer, hrest⟩ := List.forall_mem_cons.mp hlayers
      exact ih hrest (hlayer.over h)

theorem get?_foldl_over
    {layers : List Fields}
    {key : String}
    (fields : Fields)
    (hlayers : ∀ layer ∈ layers, layer.Layer)
    (hunset : ∀ layer ∈ layers, layer.get? key = none) :
    Fields.get? (layers.foldl (fun lower upper => Fields.over upper lower) fields) key =
      fields.get? key := by
  induction layers generalizing fields with
  | nil => rfl
  | cons layer layers ih =>
      obtain ⟨hlayer, hrest⟩ := List.forall_mem_cons.mp hlayers
      obtain ⟨hhead, htail⟩ := List.forall_mem_cons.mp hunset
      rw [List.foldl_cons, ih _ hrest htail, Fields.get?_over hlayer.sorted, hhead]

theorem layer_mergeLayers {layers : List Fields} (h : ∀ layer ∈ layers, layer.Layer) :
    (mergeLayers layers).Layer :=
  layer_foldl_over h Fields.layer_nil

/-- The highest layer that sets a key holds the value, and the layers under it make `below` of
the key. -/
inductive Highest (layers : List Fields) (key : String) : Value → Option Value → Prop where
  | intro
      {lower above : List Fields}
      {layer : Fields}
      {value : Value}
      (hlayers : layers = lower ++ layer :: above)
      (hvalue : layer.get? key = some value)
      (hunset : ∀ other ∈ above, other.get? key = none) :
      Highest layers key value ((mergeLayers lower).get? key)

/-- What is found under a key is the highest value on what lies below it. -/
theorem Highest.get?_mergeLayers
    {layers : List Fields}
    {key : String}
    {value : Value}
    {below : Option Value}
    (h : Highest layers key value below)
    (hlayers : ∀ layer ∈ layers, layer.Layer) :
    (mergeLayers layers).get? key = some (value.onto below) ∧ value.Sorted ∧
      ∀ other, below = some other → other.Sorted := by
  obtain @⟨lower, above, layer, _, rfl, hvalue, hunset⟩ := h
  obtain ⟨hlower, hupper⟩ := List.forall_mem_append.mp hlayers
  obtain ⟨hlayer, habove⟩ := List.forall_mem_cons.mp hupper
  refine ⟨?_, hlayer.values key value hvalue, (layer_mergeLayers hlower).values key⟩
  rw [mergeLayers, List.foldl_append, List.foldl_cons, get?_foldl_over _ habove hunset,
    Fields.get?_over hlayer.sorted, hvalue]
  rfl

/-- A single variable sets the key, and its text is `text`. -/
def SetBy (environment : List (String × String)) (key text : String) : Prop :=
  ∃ before name after,
    environment = before ++ (name, text) :: after ∧
      Environment.variableField? name = some key ∧
        ∀ other ∈ before ++ after, (Environment.variableSettings other.1 other.2).get? key = none

theorem variableSettings_of_key
    {name : String}
    {s : Setting}
    (h : Environment.variableField? name = some s.key)
    (text : String) :
    Environment.variableSettings name text = [(s.key, Environment.parseValue text)] := by
  have hpath : Environment.fieldPath s.key = [s.key] := by cases s <;> decide
  have hkey : [s.key].contains "" = false := by cases s <;> decide
  simp only [Environment.variableSettings, h, hpath, hkey]
  rfl

/-- The layers of the variables, one for each. -/
def variableLayers (environment : List (String × String)) : List Fields :=
  environment.map fun entry => Environment.variableSettings entry.1 entry.2

theorem settings_eq_mergeLayers (environment : List (String × String)) :
    Environment.settings environment = mergeLayers (variableLayers environment) := by
  rw [mergeLayers, variableLayers, List.foldl_map]
  rfl

theorem layer_variableLayers (environment : List (String × String)) :
    ∀ layer ∈ variableLayers environment, layer.Layer :=
  List.forall_mem_map.mpr fun entry _ => Environment.layer_variableSettings entry.1 entry.2

/-- A setting that a single variable sets is what the text of the variable stands for. -/
theorem SetBy.get?_settings
    {environment : List (String × String)}
    {s : Setting}
    {text : String}
    (h : SetBy environment s.key text) :
    (Environment.settings environment).get? s.key = some (Environment.parseValue text) := by
  obtain ⟨before, name, after, rfl, hname, hothers⟩ := h
  obtain ⟨hbefore, hafter⟩ := List.forall_mem_append.mp hothers
  have hfirst : (Environment.variableSettings name text).get? s.key =
      some (Environment.parseValue text) := by
    rw [variableSettings_of_key hname, Fields.get?_cons, if_pos rfl]
  have hhighest : Highest (variableLayers (before ++ (name, text) :: after)) s.key
      (Environment.parseValue text) ((mergeLayers (variableLayers before)).get? s.key) :=
    .intro List.map_append hfirst (List.forall_mem_map.mpr hafter)
  have hbelow : (mergeLayers (variableLayers before)).get? s.key = none :=
    get?_foldl_over [] (layer_variableLayers before) (List.forall_mem_map.mpr hbefore)
  rw [settings_eq_mergeLayers, (hhighest.get?_mergeLayers (layer_variableLayers _)).1, hbelow]
  rfl

/-! ### Loading -/

/-- The layer of the file: its settings, or none without a file. -/
def FileLayer (disk : Disk) (path : Option String) (directory : String) (file : Fields) : Prop :=
  match configFile disk path directory with
  | .ok (some found) => readLayer disk found = .ok file
  | .ok none => file = []
  | .error _ => False

theorem FileLayer.layer
    {disk : Disk}
    {path : Option String}
    {directory : String}
    {file : Fields}
    (h : FileLayer disk path directory file) :
    file.Layer := by
  unfold FileLayer at h
  split at h
  · exact layer_readLayer h
  · exact h ▸ Fields.layer_nil
  · exact h.elim

section Load

variable {disk : Disk} {environment : List (String × String)} {path : Option String}
  {directory : String} {overrides : ConfigOverrides} {config : ProjectConfig}

/-- The layers from the lowest one to the highest one. -/
def layers (file : Fields) (environment : List (String × String)) (overrides : ConfigOverrides) :
    List Fields :=
  [({} : ProjectConfig).fields, file, Environment.settings environment, overrides.fields]

theorem ofLayers_eq_ok {layers : List Fields} (h : ofLayers layers = .ok config) :
    decode (mergeLayers (({} : ProjectConfig).fields :: layers)) = .ok config ∧
      config.validate = .ok () := by
  unfold ofLayers at h
  split at h
  · rename_i found hfound
    obtain ⟨_, ⟨⟩, h⟩ := bind_eq_ok.mp h
    obtain ⟨_, hvalid, ⟨⟩⟩ := bind_eq_ok.mp h
    exact ⟨hfound, hvalid⟩
  · obtain ⟨_, ⟨⟩, _⟩ := bind_eq_ok.mp h

theorem load_eq_ok (h : load disk environment path directory overrides = .ok config) :
    ∃ file,
      FileLayer disk path directory file ∧
        decode (mergeLayers (layers file environment overrides)) = .ok config ∧
          config.validate = .ok () := by
  obtain ⟨found, hfound, h⟩ := bind_eq_ok.mp h
  unfold FileLayer
  rw [hfound]
  cases found with
  | some found =>
      obtain ⟨file, hfile, h⟩ := bind_eq_ok.mp h
      exact ⟨file, hfile, ofLayers_eq_ok h⟩
  | none =>
      obtain ⟨file, ⟨⟩, h⟩ := bind_eq_ok.mp h
      exact ⟨[], rfl, ofLayers_eq_ok h⟩

theorem FileLayer.layers_layer
    {file : Fields}
    (h : FileLayer disk path directory file)
    (environment : List (String × String))
    (overrides : ConfigOverrides) :
    ∀ layer ∈ layers file environment overrides, layer.Layer := by
  refine List.forall_mem_cons.mpr ⟨layer_defaults, List.forall_mem_cons.mpr ⟨h.layer, ?_⟩⟩
  refine List.forall_mem_cons.mpr ⟨Environment.layer_settings environment, ?_⟩
  exact List.forall_mem_singleton.mpr (layer_overrides overrides)

/-- The highest layer that sets a setting is read, unless the layers below shadow it. -/
theorem resolves_of_decode
    {all : List Fields}
    (hall : ∀ layer ∈ all, layer.Layer)
    (hdecode : decode (mergeLayers all) = .ok config)
    {s : Setting}
    {value : Value}
    {below : Option Value}
    (h : Highest all s.key value below) :
    s.decoder (value.onto below) = .ok (s.get config) ∧
      Resolves s.decoder value below (s.get config) := by
  obtain ⟨hmerged, hvalue, hbelow⟩ := h.get?_mergeLayers hall
  have hread := Setting.decode_eq_ok hdecode s
  rw [Fields.decode, hmerged] at hread
  have hread := Decoder.within_eq_ok.mp hread
  exact ⟨hread, s.layered_decoder value below _ hvalue hbelow hread⟩

/-- A setting that no layer above the defaults sets has its default. -/
theorem get_of_unset
    {all : List Fields}
    (hall : ∀ layer ∈ all, layer.Layer)
    (hdecode : decode (mergeLayers (({} : ProjectConfig).fields :: all)) = .ok config)
    {s : Setting}
    (h : ∀ layer ∈ all, layer.get? s.key = none) :
    s.get config = s.get {} := by
  have hread := Setting.decode_eq_ok hdecode s
  have hdefault : (({} : ProjectConfig).fields).decode s.key (s.get {}) s.decoder =
      .ok (s.get {}) := by
    cases s <;> rfl
  have hmerged : (mergeLayers (({} : ProjectConfig).fields :: all)).get? s.key =
      (({} : ProjectConfig).fields).get? s.key := by
    rw [mergeLayers, List.foldl_cons, get?_foldl_over _ hall h,
      Fields.get?_over layer_defaults.sorted]
    cases (({} : ProjectConfig).fields).get? s.key with
    | none => rfl
    | some value => rfl
  unfold Fields.decode at hread hdefault
  rw [hmerged, hdefault] at hread
  exact (Except.ok.inj hread).symm

/-- What the command line gives is what the configuration has. -/
theorem get_of_given
    (h : load disk environment path directory overrides = .ok config)
    {s : Setting}
    {a : s.Content}
    (hgiven : s.given overrides = some a) :
    s.get config = a := by
  obtain ⟨file, hfile, hdecode, _⟩ := load_eq_ok h
  have hvalue : overrides.fields.get? s.key = some (s.value a) := by
    rw [get?_overrides, hgiven]
    rfl
  have hlayers : layers file environment overrides =
      [({} : ProjectConfig).fields, file, Environment.settings environment] ++
        [overrides.fields] := rfl
  have hhighest := Highest.intro hlayers hvalue nofun
  have hread := (resolves_of_decode (hfile.layers_layer environment overrides) hdecode
    hhighest).2.upper (fun ⟨fields, _, hdict, _⟩ => value_ne_dict_of_given hgiven fields hdict)
  exact Except.ok.inj (hread.symm.trans (decoder_value_of_given hgiven))

/-- A loaded configuration keeps its rules, and each of its settings is the one of the highest
layer that sets it.  A dictionary gives way to the layers below where they shadow it, which never
happens to an indentation by its usual values. -/
theorem load_eq_highest (h : load disk environment path directory overrides = .ok config) :
    config.validate = .ok () ∧
      ∃ file,
        FileLayer disk path directory file ∧
        (∀ s : Setting,
          (∀ value below, Highest (layers file environment overrides) s.key value below →
            Resolves s.decoder value below (s.get config)) ∧
          ((∀ layer ∈ (layers file environment overrides).tail, layer.get? s.key = none) →
            s.get config = s.get {}) ∧
          Environment.variableField? s.variableName = some s.key ∧
          (∀ text, SetBy environment s.key text →
            (Environment.settings environment).get? s.key =
              some (Environment.parseValue text)) ∧
          (∀ a, s.given overrides = some a → s.get config = a) ∧
          (s.given overrides = none → overrides.fields.get? s.key = none)) ∧
        ∀ value below, Highest (layers file environment overrides) "indent" value below →
          (value = .string "tabs" ∨ ∃ width, value = .dict [("spaces", width)]) →
            indentDecoder value = .ok config.indent := by
  obtain ⟨file, hfile, hdecode, hvalid⟩ := load_eq_ok h
  have hlayers := hfile.layers_layer environment overrides
  refine ⟨hvalid, file, hfile, fun s => ⟨?_, ?_, s.variableField?_variableName, ?_, ?_, ?_⟩, ?_⟩
  · exact fun value below hhighest => (resolves_of_decode hlayers hdecode hhighest).2
  · exact fun hunset => get_of_unset (List.forall_mem_cons.mp hlayers).2 hdecode hunset
  · exact fun text hset => hset.get?_settings
  · exact fun a hgiven => get_of_given h hgiven
  · intro hgiven
    rw [get?_overrides, hgiven]
    rfl
  · intro value below hhighest hvalue
    obtain ⟨hread, hresolves⟩ := resolves_of_decode (s := .indent) hlayers hdecode hhighest
    refine hresolves.upper ?_
    rcases hvalue with rfl | ⟨width, rfl⟩
    · rintro ⟨_, _, ⟨⟩, _⟩
    · exact Decoder.not_shadowed_spaces (hhighest.get?_mergeLayers hlayers).2.2 hread

end Load

/-- A directory with a configuration file. -/
def configured (text : String) : Disk where
  directory := "/work"
  entries := [("/work", .directory), ("/work/modshift.config.json", .file (some text))]

/-- A file with the quotes and the format. -/
def quotesAndFormat : String :=
  "\x7b\"quote\": \"single\", \"format\": \"yui\"\x7d"

/-- A file with an indentation by tabs that is written as a dictionary. -/
def tabsInside : String :=
  "\x7b\"indent\": \x7b\"tabs\": null\x7d\x7d"

/-- The file sets the quotes and the format, a variable the output directory and the command line
the format. -/
theorem load_eq_highest_threeLayers :
    ∃ config,
      load (configured quotesAndFormat) [("MODSHIFT_OUT_DIR", "build")] none "/work"
        { format := some .amd } = .ok config ∧
      config.validate = .ok () ∧ config.format = .amd ∧ config.quote = .single ∧
        config.outDir = "build" := by
  have hload : load (configured quotesAndFormat) [("MODSHIFT_OUT_DIR", "build")] none "/work"
      { format := some .amd } = .ok { format := .amd, quote := .single, outDir := "build" } := by
    decide +kernel
  obtain ⟨hvalid, file, hfile, hsettings, _⟩ := load_eq_highest hload
  exact ⟨_, hload, hvalid, (hsettings .format).2.2.2.2.1 .amd rfl, rfl, rfl⟩

/-- An indentation by tabs that is written as a dictionary is lost: the default has the key
`spaces`, which comes before `tabs`. -/
theorem tabs_shadowed_by_default :
    ((Json.parse? tabsInside).bind (·.get? "indent")).map indentDecoder = some (.ok .tabs) ∧
      load (configured tabsInside) [] none "/work" {} = .ok { indent := .spaces 2 } := by
  decide +kernel

end ProjectConfig
end EsModules
