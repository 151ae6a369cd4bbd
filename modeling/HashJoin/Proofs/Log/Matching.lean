import HashJoin.Index.Matching
import HashJoin.Proofs.Log.Removing

/-! Probes, as the log sees them. A probe meets the records of its own key that the
operator matches with it, in the order of their arrival, and no bucket of another key has
to be looked at. An operator that counts hits adds one to each of them; a consuming probe
deletes them and leaves the hits of all others as they are. -/

namespace HashJoin

namespace Config

variable {c : Config} {probe : Solution}

theorem meet?_of_key {k : Key} (h : c.keying probe = .key k) (op : Operator)
    (candidate : Solution) : c.meet? op candidate probe =
      if c.forms k candidate then op.match? candidate probe else none := by
  rw [meet?, h]

theorem meet?_of_missing {v : Variable} (h : c.keying probe = .missing v) (op : Operator)
    (candidate : Solution) : c.meet? op candidate probe = none := by
  rw [meet?, h]

end Config

namespace Log

variable {l : Log}

/-- The records that a probe meets, each with its merge. -/
def met (l : Log) (op : Operator) (probe : Solution) : List (EntryId × Solution) :=
  l.records.filterMap fun r => (l.config.meet? op r.solution probe).map (r.id, ·)

theorem map_fst_met (l : Log) (op : Operator) (probe : Solution) :
    (l.met op probe).map Prod.fst =
      (l.records.filter fun r => l.config.meets op r.solution probe).map Record.id := by
  rw [met, List.map_filterMap, ← List.filterMap_eq_map', List.filterMap_filter]
  refine List.filterMap_congr fun r _ => ?_
  rw [Config.meets]
  cases l.config.meet? op r.solution probe <;> rfl

theorem map_snd_met (l : Log) (op : Operator) (probe : Solution) :
    (l.met op probe).map Prod.snd =
      l.records.filterMap fun r => l.config.meet? op r.solution probe := by
  rw [met, List.map_filterMap]
  refine List.filterMap_congr fun r _ => ?_
  cases l.config.meet? op r.solution probe <;> rfl

theorem ofFound_met (l : Log) (op : Operator) (probe : Solution) :
    Matches.ofFound op (l.met op probe) = l.outcome op probe := by
  have hlen : (l.met op probe).length =
      (l.records.filterMap fun r => l.config.meet? op r.solution probe).length := by
    rw [← map_snd_met, List.length_map]
  rw [Matches.ofFound, outcome, map_snd_met, hlen]

/-- Counting first makes no difference when all that is counted is deleted. -/
theorem recount_delete {hits : Record → Nat} {gone : Record → Bool}
    (hid : ∀ r ∈ l.records, gone { r with hits := hits r } = gone r)
    (hkept : ∀ r ∈ l.records, gone r = false → hits r = r.hits) :
    (l.recount hits).delete gone = l.delete gone := by
  simp only [recount, delete, List.filter_map]
  congr 1
  have hsame : l.records.filter ((fun r => !gone r) ∘ fun r => { r with hits := hits r }) =
      l.records.filter fun r => !gone r :=
    List.filter_congr fun r hr => congrArg (!·) (hid r hr)
  rw [hsame]
  refine (List.map_congr_left fun r hr => ?_).trans (List.map_id _)
  obtain ⟨hr, hg⟩ := List.mem_filter.1 hr
  rw [hkept r hr (by simpa using hg)]
  rfl

end Log

namespace Index

variable {ix : Index} {l : Log} {op : Operator} {probe : Solution}

/-- Only the bucket of the key of a probe is searched, and nothing is missed. -/
theorem Coherent.matching_bucket (h : ix.Coherent) {k : Key} (hk : ix.config.keying probe = .key k)
    (op : Operator) : ix.matching op probe ((ix.buckets.get? k).getD []) = ix.log.met op probe := by
  rw [h.getD, matching, Log.chainIds, Log.chain, List.filterMap_map, List.filterMap_filter, Log.met]
  refine List.filterMap_congr fun r hr => ?_
  rw [log_config, Config.meet?_of_key hk]
  split
  · simp [ledger_of_mem hr, Record.entry]
  · rfl

theorem Coherent.matching_probe (h : ix.Coherent) (op : Operator) (probe : Solution) :
    ix.matching op probe ((ix.probe probe).answer.getD []) = ix.log.met op probe := by
  rw [Index.probe, keying]
  cases hk : ix.config.keying probe with
  | key k => exact h.matching_bucket hk op
  | missing v =>
    have hnone : ∀ r ∈ ix.log.records,
        (ix.log.config.meet? op r.solution probe).map (r.id, ·) = none := by
      intro r _
      rw [log_config, Config.meet?_of_missing hk]
      rfl
    exact (List.filterMap_eq_nil_iff.2 hnone).symm

theorem nodup_met (ix : Index) (op : Operator) (probe : Solution) :
    ((ix.log.met op probe).map Prod.fst).Nodup := by
  rw [Log.map_fst_met]
  exact ix.ledger.nodup_ids.sublist (List.filter_sublist.map _)

theorem mem_met_iff {r : Record} (hr : r ∈ ix.log.records) :
    r.id ∈ (ix.log.met op probe).map Prod.fst ↔ ix.config.meets op r.solution probe = true := by
  rw [Log.map_fst_met]
  exact Ledger.id_mem_filter_iff hr _

/-! ### Probes that leave the entries where they are -/

theorem joinBucket_answer (ix : Index) (op : Operator) (probe : Solution) (b : Option Bucket) :
    (ix.joinBucket op probe b).answer = .ofFound op (ix.matching op probe (b.getD [])) := by
  cases b with
  | none => cases op <;> rfl
  | some b => rfl

theorem joinBucket_state (ix : Index) (op : Operator) (probe : Solution) (b : Option Bucket) :
    (ix.joinBucket op probe b).state = (ix.markAll (if op.countsHits then
      (ix.matching op probe (b.getD [])).map Prod.fst else [])).state := by
  cases b with
  | none => cases op <;> rfl
  | some b => rfl

theorem joinBucket_counters (ix : Index) (op : Operator) (probe : Solution) (b : Option Bucket) :
    (ix.joinBucket op probe b).counters = (ix.markAll (if op.countsHits then
      (ix.matching op probe (b.getD [])).map Prod.fst else [])).counters := by
  cases b with
  | none => cases op <;> rfl
  | some b => rfl

theorem probe_state (ix : Index) (probe : Solution) : (ix.probe probe).state = ix := by
  rw [Index.probe]
  cases ix.keying probe <;> rfl

theorem Follows.join (h : ix.Follows l) (op : Operator) (probe : Solution) :
    (ix.join op probe).state.Follows (l.join op probe) ∧
      (ix.join op probe).answer = l.outcome op probe := by
  obtain ⟨h, rfl⟩ := h
  rw [Index.join, Step.andThen_state, Step.andThen_answer, probe_state, joinBucket_answer,
    joinBucket_state, h.matching_probe, Log.ofFound_met, Log.join]
  refine ⟨?_, rfl⟩
  cases op.countsHits with
  | false => exact h.follows
  | true =>
    have hhits : ∀ r ∈ ix.log.records,
        (if ix.log.config.meets op r.solution probe then r.hits + 1 else r.hits) =
          if r.id ∈ (ix.log.met op probe).map Prod.fst then r.hits + 1 else r.hits :=
      fun r hr => if_congr (mem_met_iff hr).symm rfl rfl
    rw [if_pos rfl, if_pos rfl, Log.recount_congr hhits]
    exact h.follows.markAll (ix.nodup_met op probe)

/-! ### Probes that consume -/

theorem consumeBucket_answer (ix : Index) (op : Operator) (probe : Solution) (k : Key)
    (b : Option Bucket) :
    (ix.consumeBucket op probe k b).answer = .ofFound op (ix.matching op probe (b.getD [])) := by
  cases b with
  | none => cases op <;> rfl
  | some b => rfl

theorem consumeBucket_state (ix : Index) (op : Operator) (probe : Solution) (k : Key)
    (b : Option Bucket) :
    (ix.consumeBucket op probe k b).state =
      ((ix.markAll ((ix.matching op probe (b.getD [])).map Prod.fst)).state.removeAll k
        ((ix.matching op probe (b.getD [])).map Prod.fst)).state := by
  cases b <;> rfl

theorem Follows.consume (h : ix.Follows l) (op : Operator) (probe : Solution) :
    (ix.consumeKeyed op probe (ix.keying probe)).state.Follows (l.consume op probe) ∧
      (ix.consumeKeyed op probe (ix.keying probe)).answer = l.outcome op probe := by
  obtain ⟨h, rfl⟩ := h
  have hm := h.matching_probe op probe
  rw [Index.probe, keying] at hm
  rw [keying]
  cases hk : ix.config.keying probe with
  | missing v =>
    rw [hk] at hm
    have hnone : ∀ r ∈ ix.log.records, ix.log.config.meets op r.solution probe = false := by
      intro r _
      rw [Config.meets, log_config, Config.meet?_of_missing hk]
      rfl
    rw [Log.consume, Log.delete_eq_self hnone, ← Log.ofFound_met, ← hm]
    refine ⟨h.follows, ?_⟩
    cases op <;> rfl
  | key k =>
    rw [hk] at hm
    change ix.matching op probe ((ix.buckets.get? k).getD []) = _ at hm
    change (ix.consumeBucket op probe k (ix.buckets.get? k)).state.Follows _ ∧
      (ix.consumeBucket op probe k (ix.buckets.get? k)).answer = _
    rw [consumeBucket_state, consumeBucket_answer, hm, Log.ofFound_met]
    refine ⟨?_, rfl⟩
    have hall := (h.follows.markAll (ix.nodup_met op probe)).removeAll k
      ((ix.log.met op probe).map Prod.fst)
    -- a record that meets the probe has its key, so that the removal finds it
    have hgone : ∀ r ∈ ix.log.records,
        (decide (r.id ∈ (ix.log.met op probe).map Prod.fst) && ix.config.forms k r.solution) =
          ix.config.meets op r.solution probe := by
      intro r hr
      rw [Bool.eq_iff_iff, Bool.and_eq_true, decide_eq_true_iff, mem_met_iff hr]
      refine ⟨And.left, fun hmeets => ⟨hmeets, ?_⟩⟩
      rw [Config.meets, Config.meet?_of_key hk] at hmeets
      by_contra hf
      rw [if_neg hf] at hmeets
      contradiction
    have hdel : (ix.log.recount fun r =>
          if r.id ∈ (ix.log.met op probe).map Prod.fst then r.hits + 1 else r.hits).delete
        (fun r => decide (r.id ∈ (ix.log.met op probe).map Prod.fst) &&
          ix.config.forms k r.solution) = ix.log.consume op probe := by
      rw [Log.recount_delete]
      · exact Log.delete_congr hgone
      · exact fun _ _ => rfl
      · intro r hr hg
        rw [hgone r hr, ← Bool.not_eq_true, ← mem_met_iff hr] at hg
        exact if_neg hg
    rw [← hdel]
    exact hall

end Index

end HashJoin
