import HashJoin.Buckets

/-! What look-ups find in the maps of an index. The three maps obey the same laws: giving
a key a bucket, changing its bucket and erasing it are seen by look-ups of that key alone,
and a map lists every key once, with the bucket that a look-up finds. -/

namespace HashJoin

namespace ArrivalMap

theorem lookup_cons (k : Key) (p : Key × Bucket) (pairs : List (Key × Bucket)) :
    (p :: pairs).lookup k = if k = p.1 then some p.2 else pairs.lookup k := by
  rw [List.lookup_cons]
  by_cases h : k = p.1 <;> simp [h, beq_eq_false_iff_ne.2]

theorem get?_eq_none_iff {m : ArrivalMap} {k : Key} :
    m.get? k = none ↔ k ∉ m.pairs.map Prod.fst := by
  simp only [get?, List.lookup_eq_none_iff, List.mem_map, bne_iff_ne]
  exact ⟨fun h ⟨p, hp, hk⟩ => h p hp hk.symm, fun h p hp hk => h ⟨p, hp, hk.symm⟩⟩

theorem mem_pairs_iff {m : ArrivalMap} {k : Key} {b : Bucket} :
    (k, b) ∈ m.pairs ↔ m.get? k = some b := by
  obtain ⟨pairs, distinct⟩ := m
  simp only [get?]
  induction pairs with
  | nil => simp
  | cons p pairs ih =>
    obtain ⟨hp, distinct⟩ := List.nodup_cons.1 distinct
    rw [List.mem_cons, lookup_cons]
    by_cases hk : k = p.1
    · have : (k, b) ∉ pairs := fun h => hp (hk ▸ List.mem_map_of_mem h)
      simp [hk, Prod.ext_iff, hk ▸ this, eq_comm]
    · simp [hk, Prod.ext_iff, ih distinct]

theorem get?_ensure (m : ArrivalMap) (k k' : Key) :
    (m.ensure k).get? k' = if k' = k then some ((m.get? k).getD []) else m.get? k' := by
  unfold ensure
  split
  next h =>
    by_cases hk : k' = k
    · obtain ⟨b, hb⟩ := Option.ne_none_iff_exists'.1 fun hn => get?_eq_none_iff.1 hn h
      simp [hk, hb]
    · simp [hk]
  next h =>
    have hn := get?_eq_none_iff.2 h
    simp only [get?] at hn ⊢
    rw [List.lookup_append, lookup_cons]
    by_cases hk : k' = k <;> simp [hk, hn]

theorem get?_modify (m : ArrivalMap) (k k' : Key) (f : Bucket → Bucket) :
    (m.modify k f).get? k' = if k' = k then (m.get? k).map f else m.get? k' := by
  obtain ⟨pairs, distinct⟩ := m
  simp only [get?, modify]
  clear distinct
  induction pairs with
  | nil => simp
  | cons p pairs ih =>
    rw [List.map_cons, lookup_cons, ih, lookup_cons, lookup_cons]
    by_cases hk : k' = k
    · by_cases hp : k = p.1 <;> simp [hk, hp, Ne.symm]
    · by_cases hp : p.1 = k <;> simp [hk, hp]

theorem get?_erase (m : ArrivalMap) (k k' : Key) :
    (m.erase k).get? k' = if k' = k then none else m.get? k' := by
  obtain ⟨pairs, distinct⟩ := m
  simp only [get?, erase]
  clear distinct
  induction pairs with
  | nil => simp
  | cons p pairs ih =>
    by_cases hp : p.1 = k
    · rw [List.filter_cons_of_neg (by simp [hp]), ih, lookup_cons, hp]
      by_cases hk : k' = k <;> simp [hk]
    · rw [List.filter_cons_of_pos (by simp [hp]), lookup_cons, lookup_cons, ih]
      by_cases hk : k' = k
      · simp [hk, Ne.symm hp]
      · simp [hk]

theorem size_ensure (m : ArrivalMap) (k : Key) :
    (m.ensure k).size = if (m.get? k).isNone then m.size + 1 else m.size := by
  have hn : (m.get? k).isNone = true ↔ k ∉ m.pairs.map Prod.fst := by
    rw [Option.isNone_iff_eq_none, get?_eq_none_iff]
  rw [ensure]
  split
  next h => rw [if_neg fun hk => hn.1 hk h]
  next h => rw [if_pos (hn.2 h), size, List.length_append]; rfl

end ArrivalMap

namespace Buckets

@[simp] theorem get?_empty (kind : Kind) (k : Key) : (empty kind).get? k = none := by
  cases kind
  case hashed => exact Std.HashMap.getElem?_empty
  case ordered => exact Std.TreeMap.getElem?_emptyc
  case arrival => rfl

theorem get?_ensure (m : Buckets) (k k' : Key) :
    (m.ensure k).get? k' = if k' = k then some ((m.get? k).getD []) else m.get? k' := by
  cases m with
  | hashed m =>
    simp only [ensure, get?, Std.HashMap.getElem?_insertIfNew, beq_iff_eq]
    by_cases hk : k' = k
    · subst hk
      cases h : m[k']? with
      | none => simp [Std.HashMap.mem_iff_isSome_getElem?, h]
      | some b => simp [Std.HashMap.mem_iff_isSome_getElem?, h]
    · simp [hk, Ne.symm hk]
  | ordered m =>
    simp only [ensure, get?, Std.TreeMap.getElem?_insertIfNew, Std.LawfulEqOrd.compare_eq_iff_eq]
    by_cases hk : k' = k
    · subst hk
      cases h : m[k']? with
      | none => simp [Std.TreeMap.mem_iff_isSome_getElem?, h]
      | some b => simp [Std.TreeMap.mem_iff_isSome_getElem?, h]
    · simp [hk, Ne.symm hk]
  | arrival m => exact m.get?_ensure k k'

theorem get?_modify (m : Buckets) (k k' : Key) (f : Bucket → Bucket) :
    (m.modify k f).get? k' = if k' = k then (m.get? k).map f else m.get? k' := by
  cases m with
  | hashed m => simp [modify, get?, Std.HashMap.getElem?_modify, @eq_comm _ k' k]
  | ordered m => simp [modify, get?, Std.TreeMap.getElem?_modify, @eq_comm _ k' k]
  | arrival m => exact m.get?_modify k k' f

/-- A change of a bucket neither makes nor drops one. -/
theorem get?_modify_eq_none {m : Buckets} {k k' : Key} {f : Bucket → Bucket} :
    (m.modify k f).get? k' = none ↔ m.get? k' = none := by
  rw [get?_modify]
  split
  next e => rw [Option.map_eq_none_iff, e]
  next => rfl

theorem get?_erase (m : Buckets) (k k' : Key) :
    (m.erase k).get? k' = if k' = k then none else m.get? k' := by
  cases m with
  | hashed m => simp [erase, get?, Std.HashMap.getElem?_erase, @eq_comm _ k' k]
  | ordered m => simp [erase, get?, Std.TreeMap.getElem?_erase, @eq_comm _ k' k]
  | arrival m => exact m.get?_erase k k'

/-- A map lists a bucket under a key exactly when a look-up of the key finds it. -/
theorem mem_toList_iff {m : Buckets} {k : Key} {b : Bucket} :
    (k, b) ∈ m.toList ↔ m.get? k = some b := by
  cases m with
  | hashed m => simp [toList, get?, List.mem_mergeSort, Std.HashMap.mem_toList_iff_getElem?_eq_some]
  | ordered m => exact Std.TreeMap.mem_toList_iff_getElem?_eq_some
  | arrival m => exact ArrivalMap.mem_pairs_iff

theorem length_toList (m : Buckets) : m.toList.length = m.size := by
  cases m with
  | hashed m => simp [toList, size, List.length_mergeSort, Std.HashMap.length_toList]
  | ordered m => exact Std.TreeMap.length_toList
  | arrival m => rfl

theorem size_ensure (m : Buckets) (k : Key) :
    (m.ensure k).size = if (m.get? k).isNone then m.size + 1 else m.size := by
  cases m with
  | hashed m =>
    change (m.insertIfNew k []).size = if m[k]?.isNone then m.size + 1 else m.size
    rw [Std.HashMap.size_insertIfNew]
    by_cases h : k ∈ m <;> simp [h]
  | ordered m =>
    change (m.insertIfNew k []).size = if m[k]?.isNone then m.size + 1 else m.size
    rw [Std.TreeMap.size_insertIfNew]
    by_cases h : k ∈ m <;> simp [h]
  | arrival m => exact m.size_ensure k

/-- No key is listed twice. -/
theorem nodup_toList (m : Buckets) : (m.toList.map Prod.fst).Nodup := by
  cases m with
  | hashed m =>
    have h : (m.toList.map Prod.fst).Nodup := by
      rw [Std.HashMap.map_fst_toList_eq_keys]
      exact Std.HashMap.nodup_keys
    exact ((List.mergeSort_perm m.toList byKey).map Prod.fst).nodup_iff.2 h
  | ordered m =>
    refine List.pairwise_map.2 (Std.TreeMap.distinct_keys_toList.imp fun h e => h ?_)
    exact Std.LawfulEqOrd.compare_eq_iff_eq.2 e
  | arrival m => exact m.distinct

end Buckets

end HashJoin
