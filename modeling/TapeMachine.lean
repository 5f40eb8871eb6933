import TapeMachine.Main
import TapeMachine.Proofs.BoundedVerdict
import TapeMachine.Proofs.RunCertificate
import TapeMachine.Proofs.VerdictTruth
import TapeMachine.Proofs.PassedChecks
import TapeMachine.Proofs.SafeComputation
import TapeMachine.Proofs.CreationOrder
import TapeMachine.Proofs.RaisedLimits
import TapeMachine.Proofs.ShortestPath
import TapeMachine.Proofs.CapBoundary
import TapeMachine.Proofs.RuleOrder
import TapeMachine.Proofs.StepBound
import TapeMachine.Proofs.InterleavedCalls
import TapeMachine.Proofs.MatchingRules
import TapeMachine.Proofs.AlikeComputations
import TapeMachine.Proofs.GrowingStorage
import TapeMachine.Proofs.FirstFault
import TapeMachine.Proofs.WrittenRecords
import TapeMachine.Proofs.DefinitionLayouts
import TapeMachine.Proofs.DiagramPaths
import TapeMachine.Proofs.DiagramSimulation
import TapeMachine.Proofs.BuiltInMachines
import TapeMachine.Proofs.HeadView
import TapeMachine.Proofs.Palindromes
import TapeMachine.Proofs.MatchedBlocks
import TapeMachine.Proofs.OneWayMachines
import TapeMachine.Proofs.ShippedDiagrams
import TapeMachine.Proofs.ReachableStates
import TapeMachine.Proofs.AcceptedWords
import TapeMachine.Proofs.CommandOutcome
import TapeMachine.Proofs.DetectedFormat
import TapeMachine.Proofs.DerivedDiagrams
import TapeMachine.Proofs.ExploredLevels
import TapeMachine.Proofs.CollectedPath
import TapeMachine.Proofs.UnaryIncrement
import TapeMachine.Proofs.ConfinedStorage
