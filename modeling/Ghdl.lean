import Ghdl.Grt.WaveformOverflow
import Ghdl.Psl.Union
import Ghdl.Psl.SimplePrefix
import Ghdl.Psl.Product
import Ghdl.Psl.Failure
import Ghdl.Names.Identifiers
import Ghdl.Synth.Stmts
import Ghdl.Ghw.WaveRoundTrip
import Ghdl.Ghw.StringRoundTrip
import Ghdl.Vhdl.UseClauses
import Ghdl.Vhdl.StaticArrays
import Ghdl.Grt.SdfRuns
import Ghdl.Synth.UnusedInstances
import Ghdl.Vhdl.IndexedAggregates
import Ghdl.Vhdl.NodeRuns
import Ghdl.Vhdl.StringChoicesRange
import Ghdl.Vhdl.DiscreteChoicesRange
import Ghdl.Grt.ResolvedSources
import Ghdl.Grt.ActionLists
import Ghdl.Grt.ResumeRuns
import Ghdl.Grt.TimeoutRuns
import Ghdl.Psl.HashRuns
import Ghdl.Psl.QmLimits
import Ghdl.Psl.RewriteSere
import Ghdl.Psl.EditRuns
import Ghdl.Text.IntegerLiterals
import Ghdl.Vhdl.ScanLiteralValues
import Ghdl.Ghw.AvlRuns
import Ghdl.Text.TimeUnits
import Ghdl.Files.LineTables
import Ghdl.Grt.Stack2Runs
import Ghdl.Tables.FlistRuns
import Ghdl.Psl.MergeEdges
import Ghdl.Synth.Cases
import Ghdl.Grt.CallbackRuns
import Ghdl.Grt.IntegerExp
import Ghdl.Vhdl.DecBitStrings
import Ghdl.Grt.BitVectorImages
import Ghdl.Psl.EdgeSort
import Ghdl.Vhdl.ArrayComparison
