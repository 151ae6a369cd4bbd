import HashJoin.Proofs.Log.Marking

/-! Removing, as the log sees it. Entries that lie in one bucket leave the ledger's live
entries, the bucket and the count together, and a bucket that is left empty leaves the
map. A removal under a key finds the record only if that is the key it has. -/

namespace HashJoin

namespace Log

variable {l : Log} {k : Key}

theorem delete_congr {p q : Record → Bool} (h : ∀ r ∈ l.records, p r = q r) :
    l.delete p = l.delete q := by
  rw [delete, delete]
  congr 1
  exact List.filter_congr fun r hr => by rw [h r hr]

theorem delete_eq_self {p : Record → Bool} (h : ∀ r ∈ l.records, p r = false) :
    l.delete p = l := by
  have : l.records.filter (fun r => !p r) = l.records :=
    List.filter_eq_self.2 fun r hr => by rw [h r hr]; rfl
  rw [delete, this]

theorem delete_delete (l : Log) (p q : Record → Bool) :
    (l.delete p).delete q = l.delete fun r => p r || q r := by
  simp only [delete, List.filter_filter, Bool.not_or, Bool.and_comm]

theorem mem_chainIds {id : EntryId} : id ∈ l.chainIds k ↔ ∃ r ∈ l.chain k, r.id = id :=
  List.mem_map

theorem ownsUnder_eq (l : Log) (k : Key) (h : Handle) :
    l.ownsUnder k h = decide (h.owner = l.owner ∧ h.id ∈ l.chainIds k) := by
  rw [Bool.eq_iff_iff, ownsUnder, Bool.and_eq_true, decide_eq_true_iff, decide_eq_true_iff,
    List.any_eq_true, mem_chainIds]
  simp only [decide_eq_true_iff]

/-- A record that is not stored under the key is not removed under it. -/
theorem remove_of_not_ownsUnder {h : Handle} (hn : l.ownsUnder k h = false) :
    l.remove k h = l := by
  rw [ownsUnder_eq, decide_eq_false_iff_not] at hn
  rw [remove]
  split
  next ho =>
    refine delete_eq_self fun r hr => ?_
    rw [Bool.eq_false_iff]
    intro hg
    rw [Bool.and_eq_true, decide_eq_true_iff, Config.forms_iff] at hg
    exact hn ⟨ho, mem_chainIds.2 ⟨r, mem_chain.2 ⟨hr, hg.2⟩, hg.1⟩⟩
  next => rfl

end Log

namespace Index

variable {ix : Index} {l : Log}

theorem nodup_chainIds (ix : Index) (k : Key) : (ix.log.chainIds k).Nodup :=
  ix.ledger.nodup_ids.sublist (List.filter_sublist.map _)

/-- A record whose number is in the chain of a key has that key. -/
theorem forms_of_mem_chainIds {k : Key} {r : Record} (hr : r ∈ ix.log.records)
    (hid : r.id ∈ ix.log.chainIds k) : ix.config.forms k r.solution = true := by
  obtain ⟨r', hr', e⟩ := Log.mem_chainIds.1 hid
  have hc := Log.mem_chain.1 hr'
  rw [← Ledger.eq_of_id hc.1 hr e]
  exact Config.forms_iff.2 hc.2

/-- A number is in the chain of one key at most. -/
theorem chainIds_unique {k k' : Key} {id : EntryId} (h : id ∈ ix.log.chainIds k)
    (h' : id ∈ ix.log.chainIds k') : k = k' := by
  obtain ⟨r, hr, rfl⟩ := Log.mem_chainIds.1 h
  obtain ⟨hr, hk⟩ := Log.mem_chain.1 hr
  exact Config.forms_unique (Config.forms_iff.2 hk) (forms_of_mem_chainIds hr h')

theorem erase_chainIds (ix : Index) (k : Key) (id : EntryId) :
    (ix.log.chainIds k).erase id = (ix.log.chainIds k).filter (· ∉ [id]) := by
  rw [(ix.nodup_chainIds k).erase_eq_filter]
  exact List.filter_congr fun id' _ => by simp [bne, beq_eq_decide]

/-- Deleting records of different numbers shortens the log by that many. -/
theorem length_delete {ids : List EntryId} (hn : ids.Nodup)
    (hids : ∀ id ∈ ids, ∃ r ∈ ix.log.records, r.id = id) :
    (ix.log.delete fun r => r.id ∈ ids).records.length = ix.log.records.length - ids.length := by
  have hperm : ((ix.log.records.filter fun r => r.id ∈ ids).map Record.id).Perm ids := by
    refine (List.perm_ext_iff_of_nodup ?_ hn).2 fun id => ?_
    · exact ix.ledger.nodup_ids.sublist (List.filter_sublist.map _)
    · constructor
      · intro h
        obtain ⟨r, hr, rfl⟩ := List.mem_map.1 h
        exact of_decide_eq_true (List.mem_filter.1 hr).2
      · intro h
        obtain ⟨r, hr, rfl⟩ := hids id h
        exact List.mem_map_of_mem (List.mem_filter.2 ⟨hr, decide_eq_true h⟩)
  have hsplit : (ix.log.records.filter fun r => decide (r.id ∈ ids)).length +
      (ix.log.records.filter fun r => !decide (r.id ∈ ids)).length = ix.log.records.length := by
    rw [← List.length_append]
    exact (List.filter_append_perm (fun r : Record => r.id ∈ ids) ix.log.records).length_eq
  have hlen := hperm.length_eq
  rw [List.length_map] at hlen
  change (ix.log.records.filter fun r => !decide (r.id ∈ ids)).length = _
  omega

/-- Entries of one bucket are removed together. -/
theorem Coherent.retire (h : ix.Coherent) {k : Key} {ids : List EntryId} {buckets : Buckets}
    (hn : ids.Nodup) (hids : ∀ id ∈ ids, id ∈ ix.log.chainIds k)
    (hk : buckets.get? k = if (ix.log.chainIds k).filter (· ∉ ids) = [] then none
      else some ((ix.log.chainIds k).filter (· ∉ ids)))
    (hother : ∀ k', k' ≠ k → buckets.get? k' = ix.buckets.get? k') :
    Follows { ix with
      buckets
      ledger := ids.foldl (fun ledger id => ledger.modify id Entry.retire) ix.ledger
      stored := ix.stored - ids.length } (ix.log.delete fun r => r.id ∈ ids) := by
  have hlog : log { ix with
      buckets
      ledger := ids.foldl (fun ledger id => ledger.modify id Entry.retire) ix.ledger
      stored := ix.stored - ids.length } = ix.log.delete fun r => r.id ∈ ids := by
    simp [log, Log.delete, Ledger.records_retire, Ledger.size_foldl_modify]
  have hchain : ∀ k', (ix.log.delete fun r => r.id ∈ ids).chainIds k' =
      (ix.log.chainIds k').filter (· ∉ ids) := by
    intro k'
    rw [Log.chainIds, Log.chain_delete, Log.chainIds, List.filter_map]
    congr 1
    exact List.filter_congr fun r _ => by simp
  refine ⟨⟨?_, fun k' => ?_, ?_⟩, hlog⟩
  · rw [hlog]
    exact fun r hr => h.keyed r (List.mem_filter.1 hr).1
  · rw [hlog, hchain]
    by_cases e : k' = k
    · subst e
      exact hk
    · -- a number of the other bucket is not among the removed ones
      have hsame : (ix.log.chainIds k').filter (· ∉ ids) = ix.log.chainIds k' := by
        refine List.filter_eq_self.2 fun id hid => decide_eq_true fun hm => e ?_
        exact chainIds_unique hid (hids id hm)
      rw [hsame]
      exact (hother k' e).trans (h.get? k')
  · rw [hlog, length_delete hn]
    · exact congrArg (· - ids.length) h.stored
    · intro id hid
      obtain ⟨r, hr, e⟩ := Log.mem_chainIds.1 (hids id hid)
      exact ⟨r, (Log.mem_chain.1 hr).1, e⟩

/-! ### One entry -/

theorem Follows.remove (h : ix.Follows l) (k : Key) (e : Handle) :
    (ix.remove k e).state.Follows (l.remove k e) ∧ (ix.remove k e).answer = l.ownsUnder k e := by
  obtain ⟨h, rfl⟩ := h
  have hd := ix.log.ownsUnder_eq k e
  rw [Index.remove]
  cases hb : ix.buckets.get? k with
  | none =>
    have hc : ix.log.chainIds k = [] := by rw [← h.getD, hb]; rfl
    have hn : ix.log.ownsUnder k e = false := by simp [hd, hc]
    rw [Log.remove_of_not_ownsUnder hn, hn]
    exact ⟨h.follows, rfl⟩
  | some b =>
    obtain rfl := h.get?_eq_some hb
    by_cases ho : e.owner = ix.owner ∧ e.id ∈ ix.log.chainIds k
    · have hy : ix.log.ownsUnder k e = true := hd.trans (decide_eq_true ho)
      obtain ⟨howner, hid⟩ := ho
      have hdel : ix.log.remove k e = ix.log.delete fun r => r.id ∈ [e.id] := by
        rw [Log.remove, log_owner, if_pos howner]
        refine Log.delete_congr fun r hr => ?_
        by_cases he : r.id = e.id
        · have hf := forms_of_mem_chainIds hr (he ▸ hid)
          simp [he, hf]
        · simp [he]
      rw [hdel, hy]
      simp only [howner, hid, and_self, if_true, and_true]
      have hids : ∀ id ∈ [e.id], id ∈ ix.log.chainIds k := by
        intro id hm
        rw [List.mem_singleton.1 hm]
        exact hid
      refine h.retire (List.nodup_singleton e.id) hids ?_ ?_
      · rw [← erase_chainIds]
        cases hl : (ix.log.chainIds k).erase e.id with
        | nil => simp [Buckets.get?_erase]
        | cons id ids => simp [Buckets.get?_modify, hb, hl]
      · intro k' hk'
        split
        next => rw [Buckets.get?_erase, if_neg hk']
        next => rw [Buckets.get?_modify, if_neg hk']
    · have hn : ix.log.ownsUnder k e = false := hd.trans (decide_eq_false ho)
      rw [Log.remove_of_not_ownsUnder hn, hn]
      simp only [ho, if_false, and_true]
      exact h.follows

/-- Removing entries one after the other under a key. -/
theorem Follows.removeAll (h : ix.Follows l) (k : Key) (ids : List EntryId) :
    (ix.removeAll k ids).state.Follows
      (l.delete fun r => r.id ∈ ids && l.config.forms k r.solution) := by
  induction ids generalizing ix l with
  | nil =>
    rw [Log.delete_eq_self fun r _ => by simp]
    exact h
  | cons id ids ih =>
    have hr := (h.remove k (ix.handle id)).1
    have howner : (ix.handle id).owner = l.owner := by rw [← h.log_eq]; rfl
    have hall := ih hr
    rw [Log.remove, if_pos howner, Log.delete_delete] at hall
    have hgone : ∀ r ∈ l.records, (decide (r.id ∈ id :: ids) && l.config.forms k r.solution) =
        (decide (r.id = id) && l.config.forms k r.solution ||
          decide (r.id ∈ ids) && l.config.forms k r.solution) := by
      intro r _
      by_cases e : r.id = id <;> cases l.config.forms k r.solution <;> simp [e]
    rw [Log.delete_congr hgone]
    exact hall

/-! ### A whole bucket -/

theorem Follows.removeBucket (h : ix.Follows l) (k : Key) :
    (ix.removeBucket k).state.Follows (l.removeBucket k) ∧
      (ix.removeBucket k).answer = (l.bucket? k).map (List.map Record.id) := by
  obtain ⟨h, rfl⟩ := h
  have hans : ix.buckets.get? k = (ix.log.bucket? k).map (List.map Record.id) :=
    (h.get? k).trans (ix.log.map_bucket? k).symm
  rw [Index.removeBucket]
  cases hb : ix.buckets.get? k with
  | none =>
    have hc : ix.log.chainIds k = [] := by rw [← h.getD, hb]; rfl
    have hnone : ∀ r ∈ ix.log.records, ix.log.config.forms k r.solution = false := by
      intro r hr
      rw [Bool.eq_false_iff]
      intro hf
      have : r.id ∈ ix.log.chainIds k :=
        Log.mem_chainIds.2 ⟨r, Log.mem_chain.2 ⟨hr, Config.forms_iff.1 hf⟩, rfl⟩
      simp [hc] at this
    rw [Log.removeBucket, Log.delete_eq_self hnone]
    exact ⟨h.follows, hb.symm.trans hans⟩
  | some b =>
    obtain rfl := h.get?_eq_some hb
    refine ⟨?_, hb.symm.trans hans⟩
    have hdel : ix.log.removeBucket k = ix.log.delete fun r => r.id ∈ ix.log.chainIds k := by
      refine Log.delete_congr fun r hr => ?_
      rw [Bool.eq_iff_iff, decide_eq_true_iff]
      exact ⟨fun hf => Log.mem_chainIds.2 ⟨r, Log.mem_chain.2 ⟨hr, Config.forms_iff.1 hf⟩, rfl⟩,
        forms_of_mem_chainIds hr⟩
    rw [hdel]
    refine h.retire (k := k) (ix.nodup_chainIds k) (fun _ hid => hid) ?_ ?_
    · simp [Buckets.get?_erase]
    · intro k' hk'
      rw [Buckets.get?_erase, if_neg hk']

end Index

end HashJoin
