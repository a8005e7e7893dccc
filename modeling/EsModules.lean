import EsModules.Analysis
import EsModules.Config.Layers
import EsModules.Console.Run
import EsModules.Graph.Output
import EsModules.Main
import EsModules.Proofs.Graph.Closure
import EsModules.Proofs.Graph.ExecutionOrder
import EsModules.Proofs.Graph.FailedCalls
import EsModules.Proofs.Graph.Names
import EsModules.Proofs.Graph.StarChains
import EsModules.Proofs.Transpile.Outcome
import EsModules.Transpile
import EsModules.Proofs.Edit.Spliced
import EsModules.Proofs.SourceMap.Fidelity
import EsModules.Proofs.Transpile.Assembly
import EsModules.Proofs.Transpile.NamedMappings
import EsModules.Proofs.Graph.PublishedNames
import EsModules.Proofs.Transpile.Handles
import EsModules.Proofs.Graph.Registration
import EsModules.Proofs.Graph.Consistency
import EsModules.Proofs.Graph.Building
import EsModules.Proofs.Graph.ExternalSources
import EsModules.Proofs.Graph.RegistryKeys
import EsModules.Proofs.Transpile.Shadowing
import EsModules.Proofs.Transpile.Wrapping
import EsModules.Proofs.Transpile.LoadOrder
import EsModules.Proofs.Edit.Conflict
import EsModules.Proofs.Edit.Recording
import EsModules.Proofs.Config.Json
import EsModules.Proofs.Edit.Scan
import EsModules.Proofs.SourceMap.Tokens
import EsModules.Proofs.Graph.Cycles
import EsModules.Proofs.Transpile.SingleLoads
import EsModules.Proofs.Catalog.Unambiguous
import EsModules.Proofs.Transpile.ExportedImports
import EsModules.Proofs.Transpile.ProloguePlace
import EsModules.Proofs.Syntax.StringLiteral
import EsModules.Proofs.Graph.RequirePath
import EsModules.Proofs.Graph.LocalSources
import EsModules.Proofs.Transpile.ClearLines
import EsModules.Proofs.Transpile.Neighbours
import EsModules.Proofs.Graph.NamesByIdentity
import EsModules.Proofs.Transpile.Formatting
import EsModules.Proofs.Transpile.HandleCapture
import EsModules.Proofs.Syntax.MemberAccess
import EsModules.Proofs.Graph.LocalIds
import EsModules.Proofs.Graph.Termination
import EsModules.Proofs.Console.OutputDirectory
import EsModules.Proofs.Scope.Builder
import EsModules.Proofs.Text.Lines
