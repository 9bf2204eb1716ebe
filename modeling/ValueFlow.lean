import ValueFlow.Arena
import ValueFlow.Evaluator
import ValueFlow.Number.Bits
import ValueFlow.Proofs.Congruence
import ValueFlow.Proofs.MergeLaws
import ValueFlow.Proofs.Alternatives
import ValueFlow.Proofs.Ensures
import ValueFlow.Proofs.Bounds
import ValueFlow.Proofs.StandardOperators
import ValueFlow.Proofs.NormalForm
import ValueFlow.Proofs.PathJoins
import ValueFlow.Proofs.ConcreteRuns
import ValueFlow.Proofs.ReachableStates
import ValueFlow.Proofs.Soundness
import ValueFlow.Proofs.Noninterference
import ValueFlow.Proofs.Frame
import ValueFlow.Proofs.MergeCongruence
import ValueFlow.Proofs.Locality
import ValueFlow.Proofs.SameOperands
import ValueFlow.Proofs.Subsumption
import ValueFlow.Proofs.Fallback
import ValueFlow.Proofs.Interchange
import ValueFlow.Proofs.CompoundAssignment
import ValueFlow.Proofs.SelfDependence
import ValueFlow.Proofs.MachineWords
import ValueFlow.Proofs.Overflow
import ValueFlow.Proofs.Lifting
import ValueFlow.Proofs.InvertedConditions
import ValueFlow.Proofs.JoinLaws
import ValueFlow.Proofs.OperatorAlgebra
import ValueFlow.Proofs.BindingFilter
import ValueFlow.Proofs.Reports
import ValueFlow.Proofs.Parentheses
import ValueFlow.Proofs.RealValues
import ValueFlow.Proofs.EqualTexts
import ValueFlow.Proofs.Registration
import ValueFlow.Proofs.IssuedSymbols
import ValueFlow.Proofs.Tracing
import ValueFlow.Proofs.Rewrapping
import ValueFlow.Proofs.TruncatedDivision
