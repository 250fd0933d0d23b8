import TensorGraph.Proofs.Broadcasting
import TensorGraph.Proofs.CallGuard
import TensorGraph.Proofs.CondensedRegions
import TensorGraph.Proofs.Consolidation
import TensorGraph.Proofs.CurrentValues
import TensorGraph.Proofs.DeepCopies
import TensorGraph.Proofs.FusedChains
import TensorGraph.Proofs.Isolation
import TensorGraph.Proofs.LeftoverChains
import TensorGraph.Proofs.LeftoverSlots
import TensorGraph.Proofs.OrderedPasses
import TensorGraph.Proofs.PassReports
import TensorGraph.Proofs.References
import TensorGraph.Proofs.Reshaping
import TensorGraph.Proofs.Resorting
import TensorGraph.Proofs.SunkOperations
import TensorGraph.Proofs.TypeFixedPoint
