import HashJoin.Buckets.Lookup
import Mathlib.Data.List.Nodup
import Mathlib.Data.List.Perm.Basic

/-! The order in which the maps of an index list their buckets. A map stays of its kind.
Changing the bucket of a key leaves every bucket at its place, and erasing a key closes the
gap, whatever the kind. A map that is listed by key has its keys in rising order, so there the
look-ups alone say what is listed; for a hash map they are all that there is to say. -/

namespace HashJoin

namespace Buckets

variable (m : Buckets) (k : Key)

@[simp] theorem kind_ensure : (m.ensure k).kind = m.kind := by cases m <;> rfl

@[simp] theorem kind_modify (f : Bucket → Bucket) : (m.modify k f).kind = m.kind := by
  cases m <;> rfl

@[simp] theorem kind_erase : (m.erase k).kind = m.kind := by cases m <;> rfl

/-- Listed in strictly rising order of the keys. -/
def Rising (pairs : List (Key × Bucket)) : Prop :=
  pairs.Pairwise fun p q => compare p.1 q.1 = .lt

/-- A rising list is known by its members. -/
theorem Rising.ext {pairs pairs' : List (Key × Bucket)} (h : Rising pairs) (h' : Rising pairs')
    (hm : ∀ k b, (k, b) ∈ pairs ↔ (k, b) ∈ pairs') : pairs = pairs' := by
  have hne : ∀ {p q : Key × Bucket}, compare p.1 q.1 = .lt → p ≠ q := by
    rintro p q hlt rfl
    rw [Std.LawfulEqOrd.compare_eq_iff_eq.2 rfl] at hlt
    contradiction
  refine List.Perm.eq_of_pairwise (fun p q _ _ hlt hgt => ?_) h h' ?_
  · rw [Std.OrientedCmp.gt_of_lt hgt] at hlt
    contradiction
  · exact (List.perm_ext_iff_of_nodup (h.imp hne) (h'.imp hne)).2 fun p => hm p.1 p.2

variable {m}

theorem rising_toList (h : m.kind ≠ .arrival) : Rising m.toList := by
  cases m with
  | hashed m =>
    have hle : (m.toList.mergeSort byKey).Pairwise fun p q => byKey p q = true := by
      apply List.pairwise_mergeSort
      · intro p q r hpq hqr
        exact Std.TransCmp.isLE_trans hpq hqr
      · intro p q
        have hswap : compare q.1 p.1 = (compare p.1 q.1).swap := Std.OrientedCmp.eq_swap
        rw [byKey, byKey, hswap]
        cases compare p.1 q.1 <;> rfl
    have hne := List.pairwise_map.1 (nodup_toList (hashed m))
    refine (hle.and hne).imp fun {p q} ⟨hpq, hne⟩ => ?_
    cases hc : compare p.1 q.1 with
    | lt => rfl
    | eq => exact absurd (Std.LawfulEqOrd.eq_of_compare hc) hne
    | gt => rw [byKey, hc] at hpq; contradiction
  | ordered m => exact Std.TreeMap.ordered_keys_toList
  | arrival m => exact absurd rfl h

variable (m)

theorem toList_erase : (m.erase k).toList = m.toList.filter fun p => p.1 ≠ k := by
  by_cases h : m.kind = .arrival
  · cases m with
    | arrival m => rfl
    | hashed m | ordered m => contradiction
  · have hk : (m.erase k).kind ≠ .arrival := by rwa [kind_erase]
    refine (rising_toList hk).ext (List.Pairwise.filter _ (rising_toList h)) fun k' b => ?_
    rw [mem_toList_iff, get?_erase, List.mem_filter, mem_toList_iff]
    by_cases e : k' = k <;> simp [e]

theorem toList_modify (f : Bucket → Bucket) : (m.modify k f).toList =
    m.toList.map fun p => if p.1 = k then (p.1, f p.2) else p := by
  by_cases h : m.kind = .arrival
  · cases m with
    | arrival m => rfl
    | hashed m | ordered m => contradiction
  · have hk : (m.modify k f).kind ≠ .arrival := by rwa [kind_modify]
    have hfst : ∀ p : Key × Bucket, (if p.1 = k then (p.1, f p.2) else p).1 = p.1 := by
      intro p
      split <;> rfl
    have hmap := (rising_toList h).imp fun {p q} hlt =>
      show compare (if p.1 = k then (p.1, f p.2) else p).1
        (if q.1 = k then (q.1, f q.2) else q).1 = .lt by rwa [hfst, hfst]
    refine (rising_toList hk).ext (List.pairwise_map.2 hmap) fun k' b => ?_
    rw [mem_toList_iff, get?_modify, List.mem_map]
    constructor
    · intro hb
      split at hb
      next e =>
        obtain ⟨b', hb', rfl⟩ := Option.map_eq_some_iff.1 hb
        exact ⟨(k, b'), mem_toList_iff.2 hb', by rw [if_pos rfl, e]⟩
      next e => exact ⟨(k', b), mem_toList_iff.2 hb, if_neg e⟩
    · rintro ⟨⟨k₀, b₀⟩, hp, he⟩
      have hp := mem_toList_iff.1 hp
      obtain rfl : k₀ = k' := (hfst (k₀, b₀)).symm.trans (congrArg Prod.fst he)
      by_cases e : k₀ = k
      · subst e
        rw [if_pos rfl] at he ⊢
        rw [hp, Option.map_some, ← (Prod.mk.inj he).2]
      · rw [if_neg e] at he ⊢
        rw [hp, (Prod.mk.inj he).2]

/-! What is done to the bucket of a key leaves the others as they are, and in the order in which
they are listed. -/

theorem filter_toList_ensure : ((m.ensure k).toList.filter fun p => p.1 ≠ k) =
    m.toList.filter fun p => p.1 ≠ k := by
  rw [← toList_erase, ← toList_erase]
  by_cases h : m.kind = .arrival
  · cases m with
    | arrival m =>
      change ((m.ensure k).pairs.filter fun p => p.1 ≠ k) = m.pairs.filter fun p => p.1 ≠ k
      rw [ArrivalMap.ensure]
      split
      · rfl
      · rw [List.filter_append]
        simp
    | hashed m | ordered m => contradiction
  · refine (rising_toList ?_).ext (rising_toList ?_) fun k' b => ?_
    · rwa [kind_erase, kind_ensure]
    · rwa [kind_erase]
    · rw [mem_toList_iff, mem_toList_iff, get?_erase, get?_erase]
      split
      next => rfl
      next hk => rw [get?_ensure, if_neg hk]

theorem filter_toList_modify (f : Bucket → Bucket) :
    ((m.modify k f).toList.filter fun p => p.1 ≠ k) = m.toList.filter fun p => p.1 ≠ k := by
  rw [toList_modify, ← List.filterMap_eq_map', List.filter_filterMap, ← List.filterMap_eq_filter]
  refine List.filterMap_congr fun p _ => ?_
  by_cases hk : p.1 = k <;> simp [hk, Option.filter, Option.guard]

/-- Maps that look-ups cannot tell apart list the same buckets. -/
theorem toList_perm {m m' : Buckets} (h : ∀ k, m.get? k = m'.get? k) :
    m.toList.Perm m'.toList := by
  refine (List.perm_ext_iff_of_nodup m.nodup_toList.of_map m'.nodup_toList.of_map).2 ?_
  rintro ⟨k, b⟩
  rw [mem_toList_iff, mem_toList_iff, h]

/-! ### Sizes -/

theorem size_congr {m m' : Buckets} (h : ∀ k, m.get? k = m'.get? k) : m.size = m'.size := by
  rw [← length_toList, ← length_toList, (toList_perm h).length_eq]

theorem size_modify (f : Bucket → Bucket) : (m.modify k f).size = m.size := by
  rw [← length_toList, toList_modify, List.length_map, length_toList]

variable {m k}

/-- Without a key that had a bucket there is one bucket less. -/
theorem size_erase {b : Bucket} (h : m.get? k = some b) : (m.erase k).size + 1 = m.size := by
  have hone : m.toList.countP (fun p => p.1 = k) = 1 := by
    have hmem : k ∈ m.toList.map Prod.fst := List.mem_map_of_mem (mem_toList_iff.2 h)
    have hcount := List.count_eq_one_of_mem m.nodup_toList hmem
    rw [List.count, List.countP_map] at hcount
    rw [← hcount]
    exact List.countP_congr fun p _ => by simp
  have hsplit := m.toList.length_eq_countP_add_countP fun p => decide (p.1 = k)
  rw [← length_toList, ← length_toList, toList_erase, ← List.countP_eq_length_filter, hsplit, hone,
    Nat.add_comm]
  simp

end Buckets

end HashJoin
