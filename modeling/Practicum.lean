import Practicum.Chart.FlowSizes
import Practicum.Chart.FrameTimes
import Practicum.Chart.SourceShares
import Practicum.Choco.Parser.Phrase
import Practicum.Choco.Typing.NamedRule
import Practicum.Choco.Typing.OfAttr
import Practicum.Experiment.Script
import Practicum.Flat.BranchValue
import Practicum.IR.AttrText
import Practicum.IR.Recipe.Catalogue
import Practicum.Machine.HeldConstant
import Practicum.Main
import Practicum.Proofs.Capture.Flows
import Practicum.Proofs.Choco.LookAhead
import Practicum.Proofs.Choco.RoundTrip
import Practicum.Proofs.Choco.Editions
import Practicum.Proofs.Compiler.Labels
import Practicum.Proofs.Flat.ForLoops
import Practicum.Proofs.Flat.NeutralElements
import Practicum.Proofs.Flat.LeftToRight
import Practicum.Proofs.Flat.Stores
import Practicum.Proofs.Machine.Bounds
import Practicum.Proofs.Machine.FoldedOperators
import Practicum.Proofs.Machine.Simulation
import Practicum.Proofs.Machine.Structured
import Practicum.Proofs.Switch.Answers
import Practicum.Proofs.Switch.Learning
import Practicum.Proofs.Traffic.Coverage
import Practicum.Proofs.Transfer.InOrder
import Practicum.Proofs.Transfer.SelectiveRepeat
import Practicum.Proofs.Transfer.StopAndWait
import Practicum.Text.SnakeCase
