import Stencil.Datum
import Stencil.Native
import Stencil.Report
import Stencil.Proofs.Bisimulation
import Stencil.Proofs.Layers
import Stencil.Proofs.Journals
import Stencil.Proofs.Words
import Stencil.Proofs.TokenClasses
import Stencil.Proofs.BlockGrammar
import Stencil.Proofs.NumeralGrammar
import Stencil.Proofs.LiteralReaders
import Stencil.Proofs.LiteralGrammar
import Stencil.Proofs.LiteralAcceptance
import Stencil.Proofs.Operands
import Stencil.Proofs.RoundTrip
import Stencil.Proofs.Pieces
import Stencil.Proofs.TagPlaces
import Stencil.Proofs.Locations
import Stencil.Proofs.Concatenation
import Stencil.Proofs.LineBoundaries
import Stencil.Proofs.Transcript
import Stencil.Proofs.WellFormed
import Stencil.Proofs.LoopBindings
import Stencil.Proofs.NumberLine
import Stencil.Proofs.Equality
import Stencil.Proofs.ExactComparison
import Stencil.Proofs.Ordering
import Stencil.Proofs.FirstFault
import Stencil.Proofs.ReportPlaces
import Stencil.Proofs.LoopRounds
import Stencil.Proofs.PathComposition
import Stencil.Proofs.Identity
import Stencil.Proofs.LoopVariables
import Stencil.Proofs.RenderErrors
import Stencil.Proofs.SortedMaps
import Stencil.Proofs.Indexing
import Stencil.Proofs.OppositeConditions
import Stencil.Proofs.LiteralText
import Stencil.Proofs.Rounding
import Stencil.Proofs.JsonPaths
import Stencil.Proofs.ShortestDecimals
import Stencil.Proofs.FloatText
import Stencil.Proofs.Scans
import Stencil.Proofs.ScanReaders
import Stencil.Proofs.ScanProgress
