import HashJoin.Entry
import HashJoin.Key

/-! A map from keys to buckets that remembers the order in which its keys came. A key that
is there keeps its place; one that is removed and comes again goes last. -/

namespace HashJoin

structure ArrivalMap where
  pairs : List (Key × Bucket)
  distinct : (pairs.map Prod.fst).Nodup

namespace ArrivalMap

def empty : ArrivalMap := ⟨[], .nil⟩

def get? (m : ArrivalMap) (k : Key) : Option Bucket := m.pairs.lookup k

/-- Give `k` an empty bucket unless it has one. -/
def ensure (m : ArrivalMap) (k : Key) : ArrivalMap :=
  if h : k ∈ m.pairs.map Prod.fst then m
  else ⟨m.pairs ++ [(k, [])], by
    rw [List.map_append, List.nodup_append]
    exact ⟨m.distinct, by simp, fun a ha b hb hab => h (by simp_all)⟩⟩

def modify (m : ArrivalMap) (k : Key) (f : Bucket → Bucket) : ArrivalMap :=
  ⟨m.pairs.map fun p => if p.1 = k then (p.1, f p.2) else p, by
    have : (m.pairs.map fun p => if p.1 = k then (p.1, f p.2) else p).map Prod.fst
        = m.pairs.map Prod.fst := by
      rw [List.map_map]
      exact List.map_congr_left fun p _ => by simp only [Function.comp]; split <;> rfl
    rw [this]
    exact m.distinct⟩

def erase (m : ArrivalMap) (k : Key) : ArrivalMap :=
  ⟨m.pairs.filter fun p => p.1 ≠ k, m.distinct.sublist (List.filter_sublist.map _)⟩

def size (m : ArrivalMap) : Nat := m.pairs.length

end ArrivalMap

end HashJoin
