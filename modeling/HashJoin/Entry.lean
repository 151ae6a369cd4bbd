import HashJoin.Counters
import HashJoin.Solution

/-! Entries, the stored solutions of an index. An entry counts how often it has been
matched since it came in or the counts were last cleared, and it is live until it is
removed. Entries are numbered in the order of their arrival, and a removed entry keeps
its number, so that a handle to it can still be read. -/

namespace HashJoin

abbrev EntryId := Nat

structure Entry where
  solution : Solution
  hits : Nat := 0
  live : Bool := true
  deriving DecidableEq

namespace Entry

def isMatched (e : Entry) : Bool := 0 < e.hits

def hit (e : Entry) : Entry := { e with hits := e.hits + 1 }

def clear (e : Entry) : Entry := { e with hits := 0 }

def retire (e : Entry) : Entry := { e with live := false }

def idText (id : EntryId) : String := "#" ++ toString id

/-- All that is known of an entry, in one line. -/
def debug (id : EntryId) (e : Entry) : String :=
  "SolutionHit \x7b id: EntryId(" ++ toString id ++ "), solution: " ++ toString e.solution
    ++ ", hits: " ++ toString e.hits ++ ", live: " ++ toString e.live ++ " \x7d"

end Entry

/-- The entries of one key, in the order of their arrival. -/
abbrev Bucket := List EntryId

/-- All entries that an index ever took in, each at the place that its number says. -/
abbrev Ledger := Array Entry

namespace Ledger

/-- How many entries of a bucket have never been matched. -/
def unmatchedCount (ledger : Ledger) (bucket : Bucket) : Nat :=
  bucket.countP fun id => !ledger[id]?.any Entry.isMatched

end Ledger

/-- An entry of one among several indices. -/
structure Handle where
  owner : Nat
  id : EntryId
  deriving DecidableEq

/-- The two classes of entries that a scan can ask for. -/
inductive HitClass where
  | unmatched
  | matched
  deriving DecidableEq

namespace HitClass

def includes : HitClass → Entry → Bool
  | unmatched, e => !e.isMatched
  | matched, e => e.isMatched

/-- What a scan counts for the solutions that it gives out: nothing, if they were matched. -/
def emitting : HitClass → Nat → Counters
  | unmatched, n => { unmatchedEmitted := n }
  | matched, _ => {}

end HitClass

end HashJoin
