import ProgDep.Analysis
import ProgDep.Catalog
import ProgDep.CommandLine.Arguments
import ProgDep.CommandLine.Directory
import ProgDep.CommandLine.Help
import ProgDep.CommandLine.Run
import ProgDep.CommandLine.Switch
import ProgDep.CommandLine.Word
import ProgDep.Control
import ProgDep.DefUse
import ProgDep.Dependence
import ProgDep.Dominance
import ProgDep.Dot
import ProgDep.Effect
import ProgDep.Flow
import ProgDep.Format
import ProgDep.Function
import ProgDep.Graph.Basic
import ProgDep.Graph.Walk
import ProgDep.Instruction
import ProgDep.Main
import ProgDep.Module
import ProgDep.Opcode
import ProgDep.Operand
import ProgDep.OrderedSet
import ProgDep.Proofs.ControlDependence
import ProgDep.Proofs.DominatorTree
import ProgDep.Proofs.FlowGraph
import ProgDep.Proofs.Iteration
import ProgDep.Proofs.MemoryDependence
import ProgDep.Proofs.Path
import ProgDep.Proofs.RequestHistory
import ProgDep.Proofs.Search
import ProgDep.Proofs.Table
import ProgDep.Refusal
import ProgDep.Report
import ProgDep.Settings
import ProgDep.Source.Declaration
import ProgDep.Source.Grammar
import ProgDep.Source.Parse
import ProgDep.Source.Terminal
import ProgDep.Store
import ProgDep.Text.Blank
import ProgDep.Text.Column
import ProgDep.Text.Digit
import ProgDep.Text.Display
import ProgDep.Text.Line
import ProgDep.Text.Name
import ProgDep.Text.Numeral
import ProgDep.Text.Printable
import ProgDep.Text.Quoted
import ProgDep.Text.Separated
import ProgDep.Warning
import ProgDep.Workspace
import ProgDep.Proofs.UnreachableCode
import ProgDep.Proofs.Lexeme
import ProgDep.Proofs.Sentence
import ProgDep.Proofs.Assembly
import ProgDep.Proofs.Readable
import ProgDep.Proofs.Spelling
import ProgDep.Proofs.Layout
import ProgDep.Proofs.Rereading
import ProgDep.Proofs.RoundTrip
import ProgDep.Proofs.TreeQueries
import ProgDep.Proofs.ParseReport
import ProgDep.Proofs.ShownLabels
import ProgDep.Proofs.RunOutcome
import ProgDep.Proofs.ControlFrontier
import ProgDep.Proofs.Footprint
import ProgDep.Proofs.DependenceEdges
import ProgDep.Proofs.BoundedSearch
import ProgDep.Proofs.DependenceChains
import ProgDep.Proofs.GraphSettings
import ProgDep.Proofs.BranchOutcomes
import ProgDep.Proofs.MalformedFunction
import ProgDep.Proofs.SearchDepth
import ProgDep.Proofs.EdgeTables
import ProgDep.Proofs.Fallible
import ProgDep.Proofs.FlowEdges
import ProgDep.Proofs.FreshVariables
import ProgDep.Proofs.DotText
import ProgDep.Proofs.Drawing
import ProgDep.Proofs.PrintedLine
import ProgDep.Proofs.LineBreaks
import ProgDep.Proofs.TrailingBlanks
import ProgDep.Proofs.Construction
import ProgDep.Proofs.TreeViews
import ProgDep.Proofs.PrunedTree
import ProgDep.Proofs.DepthFirst
import ProgDep.Proofs.DeclaredOrder
import ProgDep.Proofs.LabelToken
import ProgDep.Proofs.QuotedEnd
