import HashJoin.Index

/-! A summary of an index: how many buckets and stored entries it has, how many of these
were matched, and the size of the largest bucket. -/

namespace HashJoin

structure Summary where
  buckets : Nat := 0
  solutions : Nat := 0
  matched : Nat := 0
  unmatched : Nat := 0
  largest : Nat := 0
  deriving DecidableEq

namespace Summary

def addBucket (ledger : Ledger) (s : Summary) (bucket : Bucket) : Summary :=
  let unmatched := ledger.unmatchedCount bucket
  { buckets := s.buckets + 1
    solutions := s.solutions + bucket.length
    matched := s.matched + (bucket.length - unmatched)
    unmatched := s.unmatched + unmatched
    largest := max s.largest bucket.length }

end Summary

namespace Index

def summary (ix : Index) : Summary :=
  (ix.buckets.toList.map Prod.snd).foldl (Summary.addBucket ix.ledger) {}

end Index

end HashJoin
