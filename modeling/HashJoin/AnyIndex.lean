import HashJoin.SharedIndex

/-! Indices of either kind, the operations on one index, and the replies to them. A reply
hands out buckets as snapshots; which entries they have never changes, while the entries
themselves are read from the index that made them. -/

namespace HashJoin

/-- An index in use by one side alone, or one that is shared. -/
inductive AnyIndex where
  | base (ix : Index)
  | shared (ix : SharedIndex)

/-- A bucket as it was when it was handed out. -/
structure Snapshot where
  owner : Nat
  ids : Bucket
  deriving DecidableEq

namespace Snapshot

/-- The entry of a snapshot that has the same number as a given one. -/
def find? (b : Snapshot) (h : Handle) : Option Handle :=
  if h.id ∈ b.ids then some ⟨b.owner, h.id⟩ else none

end Snapshot

inductive Reply where
  | done
  | entry (stored : Option Handle)
  | intake (counts : Intake)
  | flag (value : Bool)
  | keying (keying : Keying)
  | bucket (found : Option Snapshot)
  | solutions (found : List Solution)
  | summary (summary : Summary)
  | config (config : Config)
  | matches (found : Matches)
  | buckets (listed : List (Key × Snapshot))
  | opened (cursor : Nat) (remaining : Nat)
  | next (found : Option Solution) (remaining : Nat)
  /-- There is no such index or scan, or the index does not have the operation. -/
  | unavailable
  deriving DecidableEq

/-- An operation on one index. -/
inductive IndexOp where
  | insert (s : Solution)
  | insertAll (solutions : List Solution)
  | insertNew (s : Solution)
  | keying (s : Solution)
  | lookup (k : Key)
  | probe (s : Solution)
  | mark (h : Handle)
  | clearHits
  | scan (hitClass : HitClass) (limit : Option Nat)
  | summary
  | config
  | join (op : Operator) (probe : Solution)
  /-- Go on with the index inside a shared one. -/
  | unshare
  /-- List all buckets; not for shared indices. -/
  | buckets
  /-- Remove one entry; only from shared indices, as are the next two. -/
  | remove (k : Key) (h : Handle)
  | removeBucket (k : Key)
  | consume (op : Operator) (probe : Solution)
  deriving DecidableEq

namespace Index

def snapshot (ix : Index) (bucket : Bucket) : Snapshot := ⟨ix.owner, bucket⟩

def perform (ix : Index) : IndexOp → Step Index Reply
  | .insert s => (ix.insert s).map id fun entry => .entry (entry.map ix.handle)
  | .insertAll solutions => (ix.insertAll solutions).map id .intake
  | .insertNew s => (ix.insertNew s).map id .flag
  | .keying s => ⟨.keying (ix.keying s), ix, 0⟩
  | .lookup k => (ix.lookup k).map id fun b => .bucket (b.map ix.snapshot)
  | .probe s => (ix.probe s).map id fun b => .bucket (b.map ix.snapshot)
  | .mark h => (ix.mark h).map id .flag
  | .clearHits => ix.clearHits.map id fun _ => .done
  | .scan hitClass limit => (ix.scan hitClass limit).map id .solutions
  | .summary => ⟨.summary ix.summary, ix, 0⟩
  | .config => ⟨.config ix.config, ix, 0⟩
  | .join op probe => (ix.join op probe).map id .matches
  | .unshare => ⟨.done, ix, 0⟩
  | .buckets => ⟨.buckets (ix.buckets.toList.map fun p => (p.1, ix.snapshot p.2)), ix, 0⟩
  | .remove .. | .removeBucket _ | .consume .. => ⟨.unavailable, ix, 0⟩

end Index

namespace SharedIndex

def perform (ix : SharedIndex) : IndexOp → Step SharedIndex Reply
  | .insert s => (ix.insert s).map id fun entry => .entry (entry.map ix.core.handle)
  | .insertAll solutions => (ix.insertAll solutions).map id .intake
  | .insertNew s => (ix.insertNew s).map id .flag
  | .keying s => ⟨.keying (ix.keying s), ix, 0⟩
  | .lookup k => (ix.lookup k).map id fun b => .bucket (b.map ix.core.snapshot)
  | .probe s => (ix.probe s).map id fun b => .bucket (b.map ix.core.snapshot)
  | .mark h => (ix.mark h).map id .flag
  | .clearHits => ix.clearHits.map id fun _ => .done
  | .scan hitClass limit => (ix.scan hitClass limit).map id .solutions
  | .summary => ⟨.summary ix.summary, ix, 0⟩
  | .config => ⟨.config ix.config, ix, 0⟩
  | .join op probe => (ix.join op probe).map id .matches
  | .remove k h => (ix.remove k h).map id .flag
  | .removeBucket k => (ix.removeBucket k).map id fun b => .bucket (b.map ix.core.snapshot)
  | .consume op probe => (ix.consume op probe).map id .matches
  | .unshare | .buckets => ⟨.unavailable, ix, 0⟩

end SharedIndex

namespace AnyIndex

def core : AnyIndex → Index
  | base ix => ix
  | shared ix => ix.core

def perform : AnyIndex → IndexOp → Step AnyIndex Reply
  | shared ix, .unshare => ⟨.done, base ix.core, 0⟩
  | shared ix, op => (ix.perform op).map shared id
  | base ix, op => (ix.perform op).map base id

end AnyIndex

end HashJoin
