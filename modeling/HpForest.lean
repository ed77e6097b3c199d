import HpForest.Forest.Topology
import HpForest.History
import HpForest.Json.Collection
import HpForest.Json.Options
import HpForest.Proofs.Choice.Absorption
import HpForest.Proofs.Choice.Anticipation
import HpForest.Proofs.Choice.Changes
import HpForest.Proofs.Coarsening.CleanUp
import HpForest.Proofs.Coarsening.Rounds
import HpForest.Proofs.Coarsening.Undo
import HpForest.Proofs.Collection.Pushes
import HpForest.Proofs.Collection.Stored
import HpForest.Proofs.Cycle
import HpForest.Proofs.Execution.Balance
import HpForest.Proofs.Execution.InPlace
import HpForest.Proofs.Execution.InTurn
import HpForest.Proofs.Execution.Rest
import HpForest.Proofs.Forest.Refusal
import HpForest.Proofs.Forest.Tree
import HpForest.Proofs.History.Elements
import HpForest.Proofs.History.Lifetime
import HpForest.Proofs.History.Tiling
import HpForest.Proofs.Prediction.Order
import HpForest.Proofs.Strategy.Interpolation
import HpForest.Proofs.Strategy.Union
import HpForest.Proofs.Choice.ByCell
