import HashJoin.Buckets.Arrival
import Std.Data.HashMap
import Std.Data.TreeMap

/-! The maps from keys to buckets that an index can stand on. They hold the same buckets
and differ only in the order in which they list them: by key, or by the arrival of the
keys. A hash map has no order of its own. Its buckets are listed by key here, and what is said
of their order says no more of a hash map than which buckets it has. -/

namespace HashJoin

inductive Buckets where
  | hashed (map : Std.HashMap Key Bucket)
  | ordered (map : Std.TreeMap Key Bucket)
  | arrival (map : ArrivalMap)

namespace Buckets

inductive Kind where
  | hashed
  | ordered
  | arrival
  deriving DecidableEq

def Kind.label : Kind → String
  | hashed => "hash"
  | ordered => "ordered"
  | arrival => "insertion-ordered"

def empty : Kind → Buckets
  | .hashed => hashed ∅
  | .ordered => ordered ∅
  | .arrival => arrival .empty

def kind : Buckets → Kind
  | hashed _ => .hashed
  | ordered _ => .ordered
  | arrival _ => .arrival

def get? : Buckets → Key → Option Bucket
  | hashed m, k => m[k]?
  | ordered m, k => m[k]?
  | arrival m, k => m.get? k

/-- Give `k` an empty bucket unless it has one. -/
def ensure : Buckets → Key → Buckets
  | hashed m, k => hashed (m.insertIfNew k [])
  | ordered m, k => ordered (m.insertIfNew k [])
  | arrival m, k => arrival (m.ensure k)

/-- Change the bucket of `k`, if it has one. -/
def modify : Buckets → Key → (Bucket → Bucket) → Buckets
  | hashed m, k, f => hashed (m.modify k f)
  | ordered m, k, f => ordered (m.modify k f)
  | arrival m, k, f => arrival (m.modify k f)

def erase : Buckets → Key → Buckets
  | hashed m, k => hashed (m.erase k)
  | ordered m, k => ordered (m.erase k)
  | arrival m, k => arrival (m.erase k)

def size : Buckets → Nat
  | hashed m => m.size
  | ordered m => m.size
  | arrival m => m.size

def byKey (a b : Key × Bucket) : Bool := (compare a.1 b.1).isLE

/-- The buckets in the order of the map, and by key if it has none. -/
def toList : Buckets → List (Key × Bucket)
  | hashed m => m.toList.mergeSort byKey
  | ordered m => m.toList
  | arrival m => m.pairs

/-- An empty bucket for each of some keys. -/
def ofKeys (kind : Kind) (keys : List Key) : Buckets := keys.foldl ensure (empty kind)

end Buckets

end HashJoin
