import HashJoin.Index
import HashJoin.Solution.Merge

/-! Matching one solution, the probe, against an index. The entries of the bucket agree
with the probe on the join variables; whether one of them matches is decided by the
whole solutions. An operator that looks at hits afterwards has its matches marked. A
consuming probe marks every match and then removes it, so that an entry is matched by
one such probe only. -/

namespace HashJoin

namespace Operator

/-- The merge of a build solution with a probe that it matches. For `distinct` only equal
solutions match, and `minus` needs a variable that both bind. -/
def match? (op : Operator) (candidate probe : Solution) : Option Solution :=
  match op with
  | distinct => if candidate = probe then some candidate else none
  | minus => if candidate.sharesVariable probe then candidate.merge? probe else none
  | inner | optional | semi | anti => candidate.merge? probe

end Operator

/-- What a probe met: the number of its matches, and their merges if the operator gives
them out. -/
structure Matches where
  merged : List Solution := []
  count : Nat := 0
  deriving DecidableEq

namespace Matches

def any (m : Matches) : Bool := 0 < m.count

def ofFound (op : Operator) (found : List (EntryId × Solution)) : Matches :=
  { merged := if op.emitsMerges then found.map Prod.snd else []
    count := found.length }

end Matches

namespace Index

/-- The entries of a bucket that match a probe, each with its merge. -/
def matching (ix : Index) (op : Operator) (probe : Solution) (bucket : Bucket) :
    List (EntryId × Solution) :=
  bucket.filterMap fun id =>
    (ix.ledger[id]?.bind fun e => op.match? e.solution probe).map (id, ·)

def handle (ix : Index) (id : EntryId) : Handle := ⟨ix.owner, id⟩

def markAll (ix : Index) (ids : List EntryId) : Step Index (List Bool) :=
  Step.each (fun ix id => ix.mark (ix.handle id)) ix ids

def removeAll (ix : Index) (k : Key) (ids : List EntryId) : Step Index (List Bool) :=
  Step.each (fun ix id => ix.remove k (ix.handle id)) ix ids

/-- Match a probe against the bucket that was looked up for it. -/
def joinBucket (ix : Index) (op : Operator) (probe : Solution) :
    Option Bucket → Step Index Matches
  | none => ⟨{}, ix, 0⟩
  | some bucket =>
    let found := ix.matching op probe bucket
    (ix.markAll (if op.countsHits then found.map Prod.fst else [])).map id
      fun _ => .ofFound op found

def join (ix : Index) (op : Operator) (probe : Solution) : Step Index Matches :=
  (ix.probe probe).andThen fun ix bucket => ix.joinBucket op probe bucket

/-- Match a probe against a bucket, mark all matches, and remove them. -/
def consumeBucket (ix : Index) (op : Operator) (probe : Solution) (k : Key) :
    Option Bucket → Step Index Matches
  | none => ⟨{}, ix, 0⟩
  | some bucket =>
    let found := ix.matching op probe bucket
    ((ix.markAll (found.map Prod.fst)).andThen
      fun ix _ => ix.removeAll k (found.map Prod.fst)).map id fun _ => .ofFound op found

def consumeKeyed (ix : Index) (op : Operator) (probe : Solution) : Keying → Step Index Matches
  | .missing _ => ⟨{}, ix, 0⟩
  | .key k => (ix.lookup k).andThen fun ix bucket => ix.consumeBucket op probe k bucket

end Index

end HashJoin
