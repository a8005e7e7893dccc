import EsModules.Config.Error
import EsModules.Graph.Output

/-!
# Output formats and source map modes
-/

namespace EsModules

/-- The format of the output. -/
inductive OutputFormat where
  | cjs
  | amd
  | amdCjs
  | yui
  /-- A whole graph for the `System` loader. -/
  | system
  /-- A whole graph of CommonJS files. -/
  | commonJs
  deriving DecidableEq, Repr, Inhabited

namespace OutputFormat

/-- All formats. -/
def all : List OutputFormat :=
  [cjs, amd, amdCjs, yui, system, commonJs]

/-- The name of a format. -/
def name : OutputFormat → String
  | cjs => "cjs"
  | amd => "amd"
  | amdCjs => "amd-cjs"
  | yui => "yui"
  | system => "system"
  | commonJs => "commonjs"

/-- The format for single modules, if it is one. -/
def target? : OutputFormat → Option Target
  | cjs => some Target.cjs
  | amd => some Target.amd
  | amdCjs => some Target.amdCjs
  | yui => some Target.yui
  | _ => none

/-- The format for whole graphs, if it is one. -/
def graph? : OutputFormat → Option GraphFormat
  | system => some .system
  | commonJs => some .commonJs
  | _ => none

/-- The format with a name; the format `amd-cjs` has a second one. -/
def parse (text : String) : Except ConfigError OutputFormat :=
  match all.find? (·.name == text) with
  | some format => .ok format
  | none =>
      if text == "amdWrappedCjs" then .ok amdCjs
      else
        .error (.invalidValue "format" text "Use cjs, amd, amd-cjs, yui, system or commonjs")

end OutputFormat

/-- Where source maps go. -/
inductive SourceMapMode where
  /-- A file next to the output. -/
  | external
  /-- A comment at the end of the output. -/
  | inline
  | none
  deriving DecidableEq, Repr, Inhabited

namespace SourceMapMode

/-- All modes. -/
def all : List SourceMapMode :=
  [external, inline, none]

/-- The name of a mode. -/
def name : SourceMapMode → String
  | external => "external"
  | inline => "inline"
  | none => "none"

end SourceMapMode
end EsModules
