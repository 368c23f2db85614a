import Cotangent.Evaluation.Run
import Cotangent.Program.Scope
import Cotangent.Derivative.Forward
import Cotangent.Derivative.Reverse
import Cotangent.Proofs.Derivative.ForwardProgram
import Cotangent.Proofs.Derivative.ReverseProgram
import Cotangent.Proofs.Derivative.ScalarPasses
import Cotangent.Proofs.Derivative.Transposition
import Cotangent.Proofs.Derivative.SupplyThreading
import Cotangent.Proofs.Derivative.ReverseLookups
import Cotangent.Proofs.Derivative.TypedReverse
import Cotangent.Proofs.Evaluation.ScopeSafety
import Cotangent.Proofs.Evaluation.Arithmetic
import Cotangent.Proofs.Evaluation.Blindness
import Cotangent.Proofs.Evaluation.DirectRuns
import Cotangent.Proofs.Scope.WellScoped
import Cotangent.Proofs.Scope.FreshBinders
import Cotangent.Proofs.Evaluation.Contracts
import Cotangent.Proofs.Evaluation.Obligations
import Cotangent.Proofs.Evaluation.Fuel
import Cotangent.Proofs.Evaluation.Termination
import Cotangent.Proofs.Evaluation.CanonicalIntegers
import Cotangent.Proofs.Derivative.FunctionTables
import Cotangent.Proofs.Derivative.ForwardEntryPoints
import Cotangent.Proofs.Evaluation.Unfusing
import Cotangent.Proofs.Derivative.ArraySums
import Cotangent.Proofs.Derivative.CopyAdjoints
import Cotangent.Proofs.Derivative.CopySweep
import Cotangent.Proofs.Derivative.CopyTyping
import Cotangent.Proofs.Derivative.SummedSeeds
import Cotangent.Proofs.Value.Rectangular
import Cotangent.Proofs.Value.Reshaping
import Cotangent.Proofs.Value.Rearranging
import Cotangent.Proofs.Evaluation.Confinement
import Cotangent.Proofs.Evaluation.Lockstep
import Cotangent.Proofs.Value.Lens
import Cotangent.Proofs.Evaluation.Tallies
import Cotangent.Proofs.Evaluation.UpdateRegions
import Cotangent.Proofs.Value.Rotating
import Cotangent.Proofs.Evaluation.ExactIntegers
import Cotangent.Proofs.Value.Joining
import Cotangent.Proofs.Derivative.IntegerPartials
import Cotangent.Proofs.Derivative.NestedScopes
import Cotangent.Proofs.Program.BuilderJournal
import Cotangent.Proofs.Regions.Duals
import Cotangent.Proofs.Tandem.InlinedStreams
import Cotangent.Proofs.Evaluation.OwnOperators
