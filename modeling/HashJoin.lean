import HashJoin.Buckets.Lookup
import HashJoin.Json.Codec
import HashJoin.Proofs.ArrivalOrder
import HashJoin.Proofs.Batches
import HashJoin.Proofs.Canonical
import HashJoin.Proofs.Conservation
import HashJoin.Proofs.Consuming
import HashJoin.Proofs.DisjointDomains
import HashJoin.Proofs.Encoding
import HashJoin.Proofs.EvaluationCounters
import HashJoin.Proofs.Finality
import HashJoin.Proofs.FirstOccurrences
import HashJoin.Proofs.History
import HashJoin.Proofs.HitHistory
import HashJoin.Proofs.Independence
import HashJoin.Proofs.Json.RoundTrip
import HashJoin.Proofs.Json.Validation
import HashJoin.Proofs.KeyedMatches
import HashJoin.Proofs.LazyScans
import HashJoin.Proofs.LeftJoin
import HashJoin.Proofs.Log.Turnover
import HashJoin.Proofs.MapHistory
import HashJoin.Proofs.Membership
import HashJoin.Proofs.NestedLoop
import HashJoin.Proofs.OpenScans
import HashJoin.Proofs.Orders
import HashJoin.Proofs.Partition
import HashJoin.Proofs.Probing
import HashJoin.Proofs.Removal
import HashJoin.Proofs.Reordering
import HashJoin.Proofs.ScanCalls
import HashJoin.Proofs.Sharing
import HashJoin.Proofs.Shrinking
import HashJoin.Proofs.Snapshots
import HashJoin.Proofs.Splitting
import HashJoin.Proofs.VariableChoice
import HashJoin.Proofs.WellFormed
import HashJoin.Session
