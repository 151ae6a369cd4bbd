import HashJoin.Proofs.Log.Matching
import HashJoin.Proofs.Scan

/-! What an index shows of its log. A look-up finds the chain of a key, and the numbers in
it read back the records. A scan gives out the records of a class chain by chain; the
summary adds up, bucket by bucket, to what is counted in the log. -/

namespace HashJoin

namespace Index

variable {ix : Index} {l : Log}

/-! ### Buckets -/

theorem Follows.bucket (h : ix.Follows l) (k : Key) :
    ix.buckets.get? k = (l.bucket? k).map (List.map Record.id) := by
  obtain ⟨h, rfl⟩ := h
  exact (h.get? k).trans (ix.log.map_bucket? k).symm

/-- The numbers in a bucket are those of the records of its key, and of live entries. -/
theorem Follows.read_bucket (h : ix.Follows l) (k : Key) :
    (ix.lookup k).answer.map (List.map ix.ledger.record?) = (l.bucket? k).map (List.map some) := by
  change (ix.buckets.get? k).map _ = _
  rw [h.bucket, Option.map_map]
  obtain ⟨h, rfl⟩ := h
  rw [Log.bucket?]
  split
  next => rfl
  next =>
    rw [Option.map_some, Option.map_some, Function.comp_apply, List.map_map]
    refine congrArg some (List.map_congr_left fun r hr => ?_)
    exact Ledger.record?_id (Log.mem_chain.1 hr).1

theorem Follows.bucketCount (h : ix.Follows l) : ix.bucketCount = l.keys.length := by
  obtain ⟨h, rfl⟩ := h
  obtain ⟨keys, hk, hl⟩ := h.toList_eq
  rw [Index.bucketCount, ← Buckets.length_toList, hl, List.length_map, hk.length_eq]

/-! ### Scans -/

theorem solutions_map_id (hitClass : HitClass) {records : List Record}
    (h : ∀ r ∈ records, r ∈ ix.log.records) :
    hitClass.solutions ix.ledger (records.map Record.id) =
      (records.filter (Record.isIn hitClass)).map Record.solution := by
  rw [HitClass.solutions, List.filterMap_map, ← List.filterMap_eq_map', List.filterMap_filter]
  refine List.filterMap_congr fun r hr => ?_
  rw [Function.comp_apply, ledger_of_mem (h r hr), Option.filter_some]
  cases hitClass with
  | unmatched => by_cases hn : r.hits = 0 <;> simp [HitClass.includes, Entry.isMatched,
      Record.entry, Record.isIn, hn, Nat.pos_iff_ne_zero]
  | matched => by_cases hn : 0 < r.hits <;> simp [HitClass.includes, Entry.isMatched,
      Record.entry, Record.isIn, hn]

/-- A scan goes through the chains of the keys in the order of the map. -/
theorem Coherent.scan_eq (h : ix.Coherent) : ∃ keys : List Key, keys.Perm ix.log.keys ∧
    ∀ hitClass : HitClass, hitClass.solutions ix.ledger ix.storedIds =
      keys.flatMap fun k => ((ix.log.chain k).filter (Record.isIn hitClass)).map Record.solution := by
  obtain ⟨keys, hk, hl⟩ := h.storedIds_eq
  refine ⟨keys, hk, fun hitClass => ?_⟩
  have hmem : ∀ r ∈ keys.flatMap ix.log.chain, r ∈ ix.log.records :=
    fun r hr => (h.keyed.flatMap_chain_perm hk).mem_iff.1 hr
  rw [hl, solutions_map_id hitClass hmem, List.filter_flatMap, List.map_flatMap]

theorem Follows.solutions_perm (h : ix.Follows l) (hitClass : HitClass) :
    (hitClass.solutions ix.ledger ix.storedIds).Perm (l.solutionsIn hitClass) := by
  obtain ⟨h, rfl⟩ := h
  obtain ⟨keys, hk, hl⟩ := h.storedIds_eq
  have hperm := h.keyed.flatMap_chain_perm hk
  rw [hl, solutions_map_id hitClass fun r hr => hperm.mem_iff.1 hr]
  exact (hperm.filter _).map _

/-! ### The summary -/

theorem countP_unmatched_add_matched (records : List Record) :
    records.countP (Record.isIn .unmatched) + records.countP (Record.isIn .matched) =
      records.length := by
  rw [List.length_eq_countP_add_countP (Record.isIn .unmatched)]
  congr 1
  refine List.countP_congr fun r _ => ?_
  simp [Record.isIn, Nat.pos_iff_ne_zero]

theorem unmatchedCount_chainIds (ix : Index) (k : Key) :
    ix.ledger.unmatchedCount (ix.log.chainIds k) =
      (ix.log.chain k).countP (Record.isIn .unmatched) := by
  rw [Ledger.unmatchedCount, Log.chainIds, List.countP_map]
  refine List.countP_congr fun r hr => ?_
  rw [Function.comp_apply, ledger_of_mem (Log.mem_chain.1 hr).1]
  simp [Entry.isMatched, Record.entry, Record.isIn]

/-- The summary of some of the chains of the log. -/
def chainSummary (ix : Index) (keys : List Key) : Summary where
  buckets := keys.length
  solutions := (keys.flatMap ix.log.chain).length
  matched := (keys.flatMap ix.log.chain).countP (Record.isIn .matched)
  unmatched := (keys.flatMap ix.log.chain).countP (Record.isIn .unmatched)
  largest := (keys.map fun k => (ix.log.chain k).length).foldl max 0

theorem addBucket_chainSummary (ix : Index) (keys : List Key) (k : Key) :
    Summary.addBucket ix.ledger (ix.chainSummary keys) (ix.log.chainIds k) =
      ix.chainSummary (keys ++ [k]) := by
  have hlen : (ix.log.chainIds k).length = (ix.log.chain k).length := List.length_map _
  have hsplit := countP_unmatched_add_matched (ix.log.chain k)
  have hmatched : (ix.log.chain k).length - (ix.log.chain k).countP (Record.isIn .unmatched) =
      (ix.log.chain k).countP (Record.isIn .matched) := by omega
  simp [Summary.addBucket, chainSummary, unmatchedCount_chainIds, hlen, hmatched]

theorem foldl_addBucket (ix : Index) (keys before : List Key) :
    (keys.map ix.log.chainIds).foldl (Summary.addBucket ix.ledger) (ix.chainSummary before) =
      ix.chainSummary (before ++ keys) := by
  induction keys generalizing before with
  | nil => rw [List.append_nil]; rfl
  | cons k keys ih =>
    rw [List.map_cons, List.foldl_cons, addBucket_chainSummary, ih, List.append_assoc]
    rfl

theorem Follows.summary (h : ix.Follows l) : ix.summary = l.summary := by
  obtain ⟨h, rfl⟩ := h
  obtain ⟨keys, hk, hl⟩ := h.toList_eq
  have hsnd : ix.buckets.toList.map Prod.snd = keys.map ix.log.chainIds := by
    rw [hl, List.map_map]
    rfl
  have hperm := h.keyed.flatMap_chain_perm hk
  have hmax : (keys.map fun k => (ix.log.chain k).length).foldl max 0 =
      (ix.log.keys.map fun k => (ix.log.chain k).length).foldl max 0 := (hk.map _).foldl_eq 0
  have hsum : ix.summary = ix.chainSummary keys := by
    rw [Index.summary, hsnd]
    exact ix.foldl_addBucket keys []
  rw [hsum, chainSummary, Log.summary, hk.length_eq, hperm.length_eq, hperm.countP_eq,
    hperm.countP_eq, hmax]

/-- All that is to be seen of an index is read off the log, whose records are in the order
of their arrival and leave the next number unused. -/
structure Shows (ix : Index) (l : Log) : Prop where
  rising : l.records.Pairwise fun r r' => r.id < r'.id
  unused : ∀ r ∈ l.records, r.id < l.next
  bucket : ∀ k, (ix.lookup k).answer.map (List.map ix.ledger.record?) =
    (l.bucket? k).map (List.map some)
  stored : ix.stored = l.records.length
  bucketCount : ix.bucketCount = l.keys.length
  summary : ix.summary = l.summary
  scan : ∀ hitClass, (ix.scan hitClass).answer.Perm (l.solutionsIn hitClass)

theorem Follows.shows (h : ix.Follows l) : ix.Shows l where
  rising := by rw [← h.log_eq]; exact ix.ledger.records_rising
  unused := by rw [← h.log_eq]; exact fun r hr => Ledger.id_lt_size hr
  bucket := h.read_bucket
  stored := by rw [← h.log_eq]; exact h.coherent.stored
  bucketCount := h.bucketCount
  summary := h.summary
  scan hitClass := by
    rw [scan_answer, Option.getD_none, List.take_length]
    exact h.solutions_perm hitClass

end Index

end HashJoin
