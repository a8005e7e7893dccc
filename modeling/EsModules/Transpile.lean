import EsModules.Analysis
import EsModules.SourceMap
import EsModules.Target.Cjs
import EsModules.Target.Amd
import EsModules.Target.Yui

/-!
# Transpilation of a module

Imports are replaced by statements that load a module into its handle, `export` keywords are
removed, and every reference to an imported binding is replaced by an access to the handle.  All
of this is recorded as edits of the source text; the target adds the code around it.
-/

namespace EsModules

open Syntax

/-- The per-module targets by name. -/
def targetNamed (name : String) : Except TranspileError Target :=
  match name with
  | "cjs" => .ok Target.cjs
  | "amd" => .ok Target.amd
  | "amd-cjs" => .ok Target.amdCjs
  | "amdWrappedCjs" => .ok Target.amdCjs
  | "yui" => .ok Target.yui
  | _ => .error (.unknownTarget name)

namespace Transpile

/-- The last part of a registry name, or the whole of it if that part is empty. -/
def basename (registryName : String) : String :=
  match (Path.segments registryName).getLast? with
  | some last => if last == "" then registryName else last
  | none => registryName

/-- Replaces a statement, or removes it if nothing takes its place. -/
def replaceOrRemove (span : Span) (text : String) : Edit :=
  if text == "" then .remove span else .replace span text

/-- The handle of a module and the statement that loads it, which is empty if the module is among
those `loaded` already. -/
def load (target : Target) (view : ModuleView) (loaded : List String) (source : String) :
    Except TranspileError (String × String) := do
  let handle ← view.requireHandle source
  if loaded.contains source then return (handle, "")
  match view.keys.find? (·.1 == source) with
  | some (_, key) => return (handle, target.importStatement view ⟨handle, source, key⟩)
  | none => throw (.missingCatalogEntry s!"registry key for '{source}'")

/-- The assignment that takes the place of `export default`. -/
def defaultAssignment : String :=
  s!"var {Catalog.defaultBinding} = "

/-- The edits of a default export. -/
def defaultEdits (span inner : Span) (value : DefaultValue) : List Edit :=
  let front : Span := ⟨span.start, inner.start⟩
  match value with
  | .function (some _) => [.remove front]
  | .classDef (some _) => [.remove front]
  | .function none => [.replace front defaultAssignment, .insert inner.stop ";"]
  | .classDef none => [.replace front defaultAssignment, .insert inner.stop ";"]
  | .name _ => [.remove span]
  | .expression => [.replace front defaultAssignment]
  | .interface => [.replace front defaultAssignment]

/-- The statement that takes the place of `export *`: the module is loaded if need be, and its
exports are published. -/
def starStatement (loading publishing : String) : String :=
  (if loading == "" then "" else loading ++ "\n") ++ Text.trimEnd publishing

/-- The edits of a statement, and the module it loads. -/
def itemEdits (target : Target) (view : ModuleView) (loaded : List String) :
    Item → Except TranspileError (List Edit × List String)
  | .imports span source _ => do
      let (_, statement) ← load target view loaded source
      return ([replaceOrRemove span statement], [source])
  | .exportDeclaration span inner _ _ => return ([.remove ⟨span.start, inner.start⟩], [])
  | .exportList span _ => return ([.remove span], [])
  | .exportFrom span source _ => do
      let (_, statement) ← load target view loaded source
      return ([replaceOrRemove span statement], [source])
  | .exportDefault span inner value _ => return (defaultEdits span inner value, [])
  | .exportAll span source (some _) => do
      let (_, statement) ← load target view loaded source
      return ([replaceOrRemove span statement], [source])
  | .exportAll span source none => do
      let (handle, statement) ← load target view loaded source
      let whole := starStatement statement (target.starExport view handle)
      return ([replaceOrRemove span whole], [source])
  | .statement _ _ _ => return ([], [])

/-- The edits of all statements; each module is loaded where it is first named. -/
def declarationEdits (target : Target) (view : ModuleView) :
    List String → List Item → Except TranspileError (List Edit)
  | _, [] => return []
  | loaded, item :: rest => do
      let (edits, sources) ← itemEdits target view loaded item
      let more ← declarationEdits target view (loaded ++ sources) rest
      return edits ++ more

/-- The text that takes the place of a reference to an imported binding. -/
def referenceText (view : ModuleView) (r : Reference) (i : ImportEntry) :
    Except TranspileError String := do
  let handle ← view.requireHandle i.source
  let access := accessExpression handle i.kind view.format
  return if r.shorthand then s!"{r.name}: {access}" else access

/-- The import that a reference reads: one that binds its name, if no scope inside the module
declares the name. -/
def importRead? (scopes : ScopeTable) (catalog : Catalog) (r : Reference) : Option ImportEntry :=
  if scopes.resolvesToModule r.name r.scope then catalog.importOf? r.name else none

/-- The edits of all references to imported bindings. -/
def referenceEdits (scopes : ScopeTable) (view : ModuleView) :
    List Reference → Except TranspileError (List Edit)
  | [] => return []
  | r :: rest =>
      match importRead? scopes view.catalog r with
      | none => referenceEdits scopes view rest
      | some i => do
          let text ← referenceText view r i
          let more ← referenceEdits scopes view rest
          return .rename r.span text :: more

/-- A text without the line feeds at its end. -/
def trimNewlines (text : String) : String :=
  String.ofList (Text.dropEndWhile (· == '\n') text.toList)

/-- The text ends a line. -/
def endsLine (text : String) : Bool :=
  text.toList.getLast? == some '\n'

/-- Inserts the prologue behind the directives, or before the first statement, so that leading
comments stay on top. -/
def prologueEdit (program : Program) (text prologue : String) : Edit :=
  if prologue == "" then .insert 0 ""
  else
    match program.directives.getLast? with
    | some directive => .insert directive.stop ("\n" ++ trimNewlines prologue)
    | none =>
        match program.items.head? with
        | some item => .insert item.span.start prologue
        | none =>
            let separator := if text == "" || endsLine text then "" else "\n"
            .insert (Text.byteLength text.toList) (separator ++ prologue)

/-- A hashbang is only valid on the first line, so it moves in front of the header. -/
def hoistHashbang (program : Program) (text header : String) : String × List Edit :=
  match program.hashbang with
  | none => (header, [])
  | some span =>
      if header == "" then (header, [])
      else
        let line := Text.trimEnd (Text.slice text span)
        let newline := Text.slice text ⟨span.stop, span.stop + 1⟩ == "\n"
        let whole : Span := ⟨span.start, if newline then span.stop + 1 else span.stop⟩
        (line ++ "\n" ++ header, [.remove whole])

/-- The text behind the module and before the footer of the wrapper. -/
def tail (text epilogue : String) : String :=
  (if epilogue != "" || !endsLine text then "\n" else "") ++ epilogue

/-- What becomes of a module: its edits, the text around it, and the names in its source map. -/
structure Draft where
  edits : List Edit
  header : String
  footer : String
  source : String
  file : String
  deriving Repr, Inhabited

/-- Applies a draft to the module that it was made for. -/
def Draft.render (draft : Draft) (text : String) : Except TranspileError Rendered :=
  Rendered.ofEdits text draft.edits draft.header draft.footer draft.source (some draft.file)

/-- The draft for a module whose registry name is known. -/
def draftAs (target : Target) (text : String) (options : TranspileOptions) (name : String) :
    Except TranspileError Draft := do
  let file := options.format.sourceFileName.getD (basename name ++ ".js")
  let program ← parseModule file text
  let catalog ← Catalog.build text program
  let keys ← options.registryKeys catalog.sources
  let scopes := ScopeTable.build program
  let view : ModuleView := ⟨name, options, catalog, keys⟩
  let declarations ← declarationEdits target view [] program.items
  let references ← referenceEdits scopes view scopes.references
  let prologue ← target.prologue view
  let wrapper ← target.wrap view
  let (header, hoisted) := hoistHashbang program text wrapper.header
  let edits := declarations ++ references ++ [prologueEdit program text prologue] ++ hoisted
  let footer := tail text (target.epilogue view) ++ wrapper.footer
  let mapName := options.format.sourceMapName.getD (basename name ++ ".js")
  return ⟨edits, header, footer, file, mapName⟩

end Transpile

/-- Transpiles a module for a target. -/
def transpileFor (target : Target) (text : String) (options : TranspileOptions) :
    Except TranspileError Rendered := do
  let draft ← Transpile.draftAs target text options (← options.requireRegistryName)
  draft.render text

/-- Transpiles a module for the target with a name. -/
def transpile (targetName text : String) (options : TranspileOptions) :
    Except TranspileError Rendered := do
  transpileFor (← targetNamed targetName) text options

end EsModules
