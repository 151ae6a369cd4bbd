import HashJoin.Index.Scan

/-! What a lazy scan gives out. It goes from bucket to bucket and stops at each entry of
its class, so what it gives out one by one is the list of the solutions of the class among
all the entries that it has still to look at. -/

namespace HashJoin

namespace HitClass

theorem solutions_append (hitClass : HitClass) (ledger : Ledger) (ids ids' : List EntryId) :
    hitClass.solutions ledger (ids ++ ids') =
      hitClass.solutions ledger ids ++ hitClass.solutions ledger ids' := List.filterMap_append

theorem length_solutions_le (hitClass : HitClass) (ledger : Ledger) (ids : List EntryId) :
    (hitClass.solutions ledger ids).length ≤ ids.length := List.length_filterMap_le _ ids

end HitClass

namespace LazyScan

variable {hitClass : HitClass} {ledger : Ledger} {current : Bucket} {later : List Bucket}

theorem remaining_ofBuckets (hitClass : HitClass) (buckets : List Bucket) :
    (ofBuckets hitClass buckets).remaining = buckets.flatten := rfl

/-- Nothing is left when no bucket has an entry of the class. -/
theorem solutions_eq_nil_of_nextFrom (h : nextFrom hitClass ledger current later = none) :
    hitClass.solutions ledger (current ++ later.flatten) = [] := by
  induction later generalizing current with
  | nil =>
    rw [nextFrom, Option.map_eq_none_iff] at h
    rw [List.flatten_nil, List.append_nil]
    exact HitClass.solutions_eq_nil h
  | cons bucket later ih =>
    rw [nextFrom] at h
    split at h
    next => contradiction
    next hn =>
      rw [HitClass.solutions_append, HitClass.solutions_eq_nil hn, List.nil_append, List.flatten_cons]
      exact ih h

/-- The next solution is the first of the class, and the scan goes on behind it. -/
theorem solutions_eq_cons_of_nextFrom {s : Solution} {rest : LazyScan}
    (h : nextFrom hitClass ledger current later = some (s, rest)) :
    rest.hitClass = hitClass ∧ hitClass.solutions ledger (current ++ later.flatten) =
      s :: hitClass.solutions ledger rest.remaining := by
  induction later generalizing current with
  | nil =>
    rw [nextFrom, Option.map_eq_some_iff] at h
    obtain ⟨⟨t, ids⟩, hn, he⟩ := h
    cases he
    refine ⟨rfl, ?_⟩
    rw [List.flatten_nil, List.append_nil, HitClass.solutions_eq_cons hn, remaining,
      List.flatten_nil, List.append_nil]
  | cons bucket later ih =>
    rw [nextFrom] at h
    split at h
    next found hn =>
      obtain ⟨t, ids⟩ := found
      cases h
      refine ⟨rfl, ?_⟩
      rw [HitClass.solutions_append, HitClass.solutions_eq_cons hn, remaining,
        HitClass.solutions_append, List.cons_append]
    next hn =>
      rw [HitClass.solutions_append, HitClass.solutions_eq_nil hn, List.nil_append, List.flatten_cons]
      exact ih h

theorem take_eq (ledger : Ledger) (n : Nat) (scan : LazyScan) :
    take ledger n scan = (scan.hitClass.solutions ledger scan.remaining).take n := by
  induction n generalizing scan with
  | zero => rfl
  | succ n ih =>
    rw [take]
    cases h : scan.next? ledger with
    | none =>
      have hnil := solutions_eq_nil_of_nextFrom h
      rw [remaining, hnil, List.take_nil]
    | some found =>
      obtain ⟨s, rest⟩ := found
      obtain ⟨hclass, hcons⟩ := solutions_eq_cons_of_nextFrom h
      rw [remaining, hcons, List.take_succ_cons, ← hclass, ← ih]

/-- A scan that is drained gives out every solution of its class. -/
theorem drain_eq (ledger : Ledger) (scan : LazyScan) :
    drain ledger scan = scan.hitClass.solutions ledger scan.remaining := by
  rw [drain, take_eq]
  exact List.take_of_length_le (HitClass.length_solutions_le _ _ _)

end LazyScan

namespace Index

variable (ix : Index) (hitClass : HitClass)

theorem remaining_lazyScan : (ix.lazyScan hitClass).remaining = ix.storedIds := by
  rw [lazyScan, LazyScan.remaining_ofBuckets, storedIds, List.flatMap_def]

theorem scan_answer (limit : Option Nat) : (ix.scan hitClass limit).answer =
    (hitClass.solutions ix.ledger ix.storedIds).take
      (limit.getD (hitClass.solutions ix.ledger ix.storedIds).length) := by
  rw [← ix.remaining_lazyScan hitClass]
  cases limit with
  | none => exact (LazyScan.drain_eq _ _).trans List.take_length.symm
  | some n => exact LazyScan.take_eq _ _ _

end Index

end HashJoin
