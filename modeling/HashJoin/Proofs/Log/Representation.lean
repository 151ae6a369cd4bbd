import HashJoin.Buckets.Lookup
import HashJoin.Proofs.Listing
import HashJoin.Proofs.Log.Ledger

/-! How an index keeps its log. The records are the live entries of the ledger. The map
holds under a key the numbers of the records of that key, and it holds nothing under a key
of no record, so no bucket is empty; the count beside the map is the number of records.
A map lists the records key by key, whatever order it has for the keys. -/

namespace HashJoin

namespace Log

variable {l : Log} {k : Key} {r : Record}

/-! ### Chains -/

theorem mem_chain : r ∈ l.chain k ↔ r ∈ l.records ∧ l.config.keying r.solution = .key k := by
  rw [chain, List.mem_filter, Config.forms_iff]

theorem mem_keys : k ∈ l.keys ↔ ∃ r ∈ l.records, l.config.keying r.solution = .key k := by
  have hk : ∀ keying : Keying, keying.key? = some k ↔ keying = .key k := by
    intro keying
    cases keying <;> simp [Keying.key?]
  simp only [keys, List.mem_dedup, List.mem_filterMap, hk]

theorem mem_keys_iff_chain : k ∈ l.keys ↔ l.chain k ≠ [] := by
  rw [mem_keys, ne_eq, List.eq_nil_iff_forall_not_mem, not_forall]
  simp only [not_not, mem_chain]

/-- Every record has a key. -/
def Keyed (l : Log) : Prop := ∀ r ∈ l.records, ∃ k, l.config.keying r.solution = .key k

/-- Chain by chain, every record is met once. -/
theorem Keyed.flatMap_chain_perm (h : l.Keyed) {keys : List Key} (hk : keys.Perm l.keys) :
    (keys.flatMap l.chain).Perm l.records := by
  apply Listing.flatMap_filter_perm
  · intro k k' r h h'
    exact Config.forms_unique h h'
  · exact hk.nodup_iff.2 (List.nodup_dedup _)
  · intro r hr
    obtain ⟨k, hf⟩ := h r hr
    exact ⟨k, hk.mem_iff.2 (mem_keys.2 ⟨r, hr, hf⟩), Config.forms_iff.2 hf⟩

/-- The numbers of the records of a key. -/
def chainIds (l : Log) (k : Key) : List EntryId := (l.chain k).map Record.id

theorem chainIds_eq_nil : l.chainIds k = [] ↔ l.chain k = [] := List.map_eq_nil_iff

theorem map_bucket? (l : Log) (k : Key) : (l.bucket? k).map (List.map Record.id) =
    if l.chainIds k = [] then none else some (l.chainIds k) := by
  rw [bucket?]
  by_cases h : l.chain k = []
  · simp [h, chainIds]
  · simp [h, chainIds]

theorem chainIds_append (l : Log) (s : Solution) (k : Key) : (l.append s).chainIds k =
    if l.config.forms k s then l.chainIds k ++ [l.next] else l.chainIds k := by
  simp only [chainIds, chain, append, List.filter_append, List.filter_cons, List.filter_nil,
    List.map_append]
  cases l.config.forms k s <;> simp

theorem chain_recount (l : Log) (hits : Record → Nat) (k : Key) :
    (l.recount hits).chain k = (l.chain k).map fun r => { r with hits := hits r } := by
  rw [chain, recount, List.filter_map]
  rfl

@[simp] theorem chainIds_recount (l : Log) (hits : Record → Nat) (k : Key) :
    (l.recount hits).chainIds k = l.chainIds k := by
  rw [chainIds, chain_recount, List.map_map]
  rfl

theorem chain_delete (l : Log) (gone : Record → Bool) (k : Key) :
    (l.delete gone).chain k = (l.chain k).filter fun r => !gone r := by
  rw [chain, chain, delete, List.filter_filter, List.filter_filter]
  exact List.filter_congr fun r _ => Bool.and_comm _ _

end Log

namespace Index

/-- The log that an index keeps. -/
def log (ix : Index) : Log where
  owner := ix.owner
  config := ix.config
  next := ix.ledger.size
  records := ix.ledger.records

variable {ix : Index}

@[simp] theorem log_owner : ix.log.owner = ix.owner := rfl
@[simp] theorem log_config : ix.log.config = ix.config := rfl
@[simp] theorem log_next : ix.log.next = ix.ledger.size := rfl
@[simp] theorem log_records : ix.log.records = ix.ledger.records := rfl

/-- The map and the count of an index agree with its log. -/
structure Coherent (ix : Index) : Prop where
  keyed : ix.log.Keyed
  get? : ∀ k, ix.buckets.get? k = if ix.log.chainIds k = [] then none else some (ix.log.chainIds k)
  stored : ix.stored = ix.log.records.length

namespace Coherent

/-- An index without entries on an empty map. -/
theorem of_size_eq_zero (owner : Nat) (config : Config) {buckets : Buckets}
    (h : buckets.size = 0) : Coherent { owner, config, buckets } where
  keyed := by simp [Log.Keyed, Ledger.records]
  get? k := by
    have hl : buckets.toList = [] := List.length_eq_zero_iff.1 (buckets.length_toList.trans h)
    have : buckets.get? k = none := by
      rw [Option.eq_none_iff_forall_ne_some]
      intro b hb
      have := Buckets.mem_toList_iff.2 hb
      simp [hl] at this
    simp [this, Log.chainIds, Log.chain, Ledger.records]
  stored := rfl

theorem getD (h : ix.Coherent) (k : Key) : (ix.buckets.get? k).getD [] = ix.log.chainIds k := by
  rw [h.get?]
  split
  next hn => rw [hn]; rfl
  next => rfl

theorem get?_eq_some (h : ix.Coherent) {k : Key} {b : Bucket} (hb : ix.buckets.get? k = some b) :
    b = ix.log.chainIds k := by
  rw [← h.getD, hb]
  rfl

/-- The bucket of a key has the numbers of its records and is not empty. -/
theorem mem_toList_iff (h : ix.Coherent) {k : Key} {bucket : Bucket} :
    (k, bucket) ∈ ix.buckets.toList ↔ bucket = ix.log.chainIds k ∧ bucket ≠ [] := by
  rw [Buckets.mem_toList_iff, h.get?]
  split
  next hn => exact ⟨nofun, fun ⟨he, hne⟩ => absurd (he.trans hn) hne⟩
  next hn => exact ⟨fun he => Option.some.inj he ▸ ⟨rfl, hn⟩, fun ⟨he, _⟩ => congrArg some he.symm⟩

/-- A change of hits alone needs no change of the map. -/
theorem recount (h : ix.Coherent) {ledger : Ledger} {hits : Record → Nat}
    (hl : ({ ix with ledger } : Index).log = ix.log.recount hits) :
    Coherent { ix with ledger } where
  keyed := by
    rw [hl]
    intro r hr
    obtain ⟨r', hr', rfl⟩ := List.mem_map.1 hr
    exact h.keyed r' hr'
  get? k := by rw [hl, Log.chainIds_recount]; exact h.get? k
  stored := by rw [hl]; simpa [Log.recount] using h.stored

/-- The map lists the chains of the log, each under its key. -/
theorem toList_eq (h : ix.Coherent) : ∃ keys : List Key, keys.Perm ix.log.keys ∧
    ix.buckets.toList = keys.map fun k => (k, ix.log.chainIds k) := by
  refine ⟨ix.buckets.toList.map Prod.fst, ?_, ?_⟩
  · refine (List.perm_ext_iff_of_nodup ix.buckets.nodup_toList (List.nodup_dedup _)).2 fun k => ?_
    rw [← Log.keys, Log.mem_keys_iff_chain, ne_eq, ← Log.chainIds_eq_nil]
    constructor
    · intro hk hn
      obtain ⟨⟨_, b⟩, hb, rfl⟩ := List.mem_map.1 hk
      have := Buckets.mem_toList_iff.1 hb
      rw [h.get?, if_pos hn] at this
      contradiction
    · intro hn
      exact List.mem_map.2 ⟨(k, ix.log.chainIds k),
        Buckets.mem_toList_iff.2 ((h.get? k).trans (if_neg hn)), rfl⟩
  · rw [List.map_map]
    refine (List.map_id _).symm.trans (List.map_congr_left fun p hp => ?_)
    obtain ⟨k, b⟩ := p
    exact congrArg (k, ·) (h.get?_eq_some (Buckets.mem_toList_iff.1 hp))

theorem storedIds_eq (h : ix.Coherent) : ∃ keys : List Key, keys.Perm ix.log.keys ∧
    ix.storedIds = (keys.flatMap ix.log.chain).map Record.id := by
  obtain ⟨keys, hk, hl⟩ := h.toList_eq
  refine ⟨keys, hk, ?_⟩
  rw [storedIds, hl, List.flatMap_map, List.map_flatMap]
  rfl

/-- The map holds the numbers of the records and no others. -/
theorem storedIds_perm (h : ix.Coherent) : ix.storedIds.Perm (ix.log.records.map Record.id) := by
  obtain ⟨keys, hk, hl⟩ := h.storedIds_eq
  rw [hl]
  exact (h.keyed.flatMap_chain_perm hk).map _

end Coherent

/-- The index is coherent and its log is `l`. -/
structure Follows (ix : Index) (l : Log) : Prop where
  coherent : ix.Coherent
  log_eq : ix.log = l

theorem Coherent.follows (h : ix.Coherent) : ix.Follows ix.log := ⟨h, rfl⟩

/-- Reading the entry of a record finds the record. -/
theorem ledger_of_mem {r : Record} (h : r ∈ ix.log.records) : ix.ledger[r.id]? = some r.entry :=
  Ledger.mem_records.1 h

end Index

end HashJoin
