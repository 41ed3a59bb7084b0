import SmallLisp.Session
import SmallLisp.Repl.Stream
import SmallLisp.Editor.Workspace
import SmallLisp.Proofs.Handlers
import SmallLisp.Proofs.Escapes
import SmallLisp.Proofs.History
import SmallLisp.Proofs.RoundTrip
import SmallLisp.Proofs.Acceptance
import SmallLisp.Proofs.Quasiquote
import SmallLisp.Proofs.Owners
import SmallLisp.Proofs.Framing
import SmallLisp.Proofs.Loading
import SmallLisp.Proofs.OneShot
import SmallLisp.Proofs.MacroFree
import SmallLisp.Proofs.Diagnosis
import SmallLisp.Proofs.Reports
import SmallLisp.Proofs.JsonText
import SmallLisp.Proofs.Exchanges
import SmallLisp.Proofs.PrivateState
import SmallLisp.Proofs.MisplacedDefinitions
import SmallLisp.Proofs.ErrorPlaces
import SmallLisp.Proofs.QuotedCode
import SmallLisp.Proofs.WrittenForms
import SmallLisp.Proofs.DefinitionIndex
import SmallLisp.Proofs.SettledForms
import SmallLisp.Proofs.FrameByFrame
import SmallLisp.Proofs.PreludeTransformers
import SmallLisp.Proofs.DerivedForms
import SmallLisp.Proofs.ClauseByClause
import SmallLisp.Proofs.Rehoming
import SmallLisp.Proofs.RehomedPrimitives
import SmallLisp.Proofs.PaneRuns
import SmallLisp.Proofs.SeenThroughPanes
import SmallLisp.Proofs.Disjunctions
import SmallLisp.Proofs.BundledPrelude
import SmallLisp.Proofs.DerivedMeanings
import SmallLisp.Proofs.CoreTrees
import SmallLisp.Proofs.LexicalScope
import SmallLisp.Proofs.OpenDocuments
import SmallLisp.Proofs.Parentheses
import SmallLisp.Proofs.RecordedPlaces
import SmallLisp.Proofs.Layouts
import SmallLisp.Proofs.ExpansionEnds
import SmallLisp.Proofs.CallDepth
import SmallLisp.Proofs.TailCalls
import SmallLisp.Proofs.CursorWords
import SmallLisp.Proofs.Shadowing
import SmallLisp.Proofs.Interning
import SmallLisp.Proofs.SymbolWords
import SmallLisp.Proofs.PreludePaths
import SmallLisp.Proofs.FloatSums
import SmallLisp.Proofs.IntegerRounding
import SmallLisp.Proofs.Overflows
import SmallLisp.Proofs.PrimitiveFailures
import SmallLisp.Proofs.Ledgers
import SmallLisp.Proofs.Equality
import SmallLisp.Proofs.PortCalls
