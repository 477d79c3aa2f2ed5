import TypeRecovery.Inference.Analysis
import TypeRecovery.Json.Message
import TypeRecovery.Snapshot.Analysis
import TypeRecovery.Snapshot.Program
import TypeRecovery.Snapshot.Store
import TypeRecovery.Proofs.Tables
import TypeRecovery.Proofs.Edits
import TypeRecovery.Proofs.Layouts
import TypeRecovery.Proofs.Stores
import TypeRecovery.Proofs.Overlays
import TypeRecovery.Proofs.Commits
import TypeRecovery.Proofs.Inferences
import TypeRecovery.Proofs.Numerals
import TypeRecovery.Proofs.WriteBacks
import TypeRecovery.Proofs.Descents
import TypeRecovery.Proofs.Advances
import TypeRecovery.Proofs.Progress
import TypeRecovery.Proofs.Analyses
import TypeRecovery.Proofs.Operations
import TypeRecovery.Proofs.Rests
import TypeRecovery.Proofs.Turns
import TypeRecovery.Proofs.MemberSizes
import TypeRecovery.Proofs.Containment
import TypeRecovery.Proofs.Trust
import TypeRecovery.Proofs.Agreement
import TypeRecovery.Proofs.Recalls
import TypeRecovery.Proofs.Recommits
import TypeRecovery.Proofs.CallTargets
import TypeRecovery.Proofs.Coverage
import TypeRecovery.Proofs.Accesses
import TypeRecovery.Proofs.Propagation
import TypeRecovery.Proofs.Arguments
import TypeRecovery.Proofs.Documents
import TypeRecovery.Proofs.Snapshots
import TypeRecovery.Proofs.Indexes
import TypeRecovery.Proofs.ProgramSnapshots
import TypeRecovery.Proofs.Limits
import TypeRecovery.Proofs.References
import TypeRecovery.Proofs.Freshness
import TypeRecovery.Proofs.Reports
import TypeRecovery.Proofs.Extents
import TypeRecovery.Proofs.Headroom
import TypeRecovery.Proofs.Ranges
import TypeRecovery.Proofs.Walks
import TypeRecovery.Proofs.UseOrders
import TypeRecovery.Proofs.Merges
import TypeRecovery.Proofs.Placements
import TypeRecovery.Proofs.Sentinels
import TypeRecovery.Proofs.Definitions
import TypeRecovery.Proofs.Annotations
import TypeRecovery.Proofs.CallEdges
import TypeRecovery.Proofs.Addresses
import TypeRecovery.Proofs.GraphNodes
import TypeRecovery.Proofs.InnerMembers
import TypeRecovery.Proofs.Shapes
import TypeRecovery.Proofs.Queries
