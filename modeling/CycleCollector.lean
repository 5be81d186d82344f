import CycleCollector.TrackedSets.Lemmas
import CycleCollector.TrackedSets.Requests
import CycleCollector.Arena.Lemmas
import CycleCollector.Session.Basic
import CycleCollector.Main
import CycleCollector.Proofs.Draining
import CycleCollector.Proofs.FixedPoint
import CycleCollector.Proofs.Verdict
import CycleCollector.Proofs.RootCounts
import CycleCollector.Proofs.Disposal
import CycleCollector.Proofs.Runs
import CycleCollector.Proofs.Resurrection
import CycleCollector.Proofs.Roles
import CycleCollector.Proofs.Lifecycle
import CycleCollector.Proofs.Books
import CycleCollector.Proofs.Mutations
import CycleCollector.Proofs.Garbage
import CycleCollector.Proofs.Soundness
import CycleCollector.Proofs.WholePass
import CycleCollector.Proofs.StepBound
import CycleCollector.Proofs.BorderReach
import CycleCollector.Proofs.Totality
import CycleCollector.Proofs.CombinedGraph
import CycleCollector.Proofs.Exactness
import CycleCollector.Proofs.Chains
import CycleCollector.Proofs.LinkedSets
import CycleCollector.Proofs.Barriers
import CycleCollector.Proofs.Accounts
import CycleCollector.Proofs.ReleaseOrder
import CycleCollector.Proofs.Findings
import CycleCollector.Proofs.Containers
import CycleCollector.Proofs.KeptBorder
import CycleCollector.Proofs.Agreement
import CycleCollector.Proofs.TrackingOrder
import CycleCollector.Proofs.SinceSnapshot
import CycleCollector.Proofs.Census
import CycleCollector.Proofs.HeldBack
import CycleCollector.Proofs.Sweeping
import CycleCollector.Proofs.Idempotence
import CycleCollector.Proofs.Classification
import CycleCollector.Proofs.LeastFixedPoint
import CycleCollector.Proofs.IsolatedBorder
import CycleCollector.Proofs.Decisions
import CycleCollector.Proofs.ContainerFates
import CycleCollector.Proofs.Interference
import CycleCollector.Proofs.Steady
import CycleCollector.Proofs.RingAllocation
import CycleCollector.Proofs.Rings
import CycleCollector.Proofs.RingLiveness
import CycleCollector.Proofs.Demonstration
import CycleCollector.Proofs.Shortfalls
