import HashJoin.Proofs.Log.Storing

/-! Counting matches, as the log sees it. A mark on the handle of a record adds one to its
hits, and any other mark changes nothing; clearing sets all hits to zero. Neither touches
the map. -/

namespace HashJoin

namespace Log

variable {l : Log}

theorem recount_eq_self {hits : Record → Nat} (h : ∀ r ∈ l.records, hits r = r.hits) :
    l.recount hits = l := by
  have : l.records.map (fun r => { r with hits := hits r }) = l.records := by
    refine (List.map_congr_left fun r hr => ?_).trans (List.map_id _)
    rw [h r hr]
    rfl
  rw [recount, this]

theorem recount_congr {hits hits' : Record → Nat} (h : ∀ r ∈ l.records, hits r = hits' r) :
    l.recount hits = l.recount hits' := by
  rw [recount, recount]
  congr 1
  exact List.map_congr_left fun r hr => by rw [h r hr]

theorem recount_recount (l : Log) (hits hits' : Record → Nat) :
    (l.recount hits).recount hits' = l.recount fun r => hits' { r with hits := hits r } := by
  simp only [recount, List.map_map]
  rfl

/-- A number that no record has is not counted. -/
theorem mark_of_not_owns {h : Handle} (hn : l.owns h = false) : l.mark h = l := by
  rw [mark]
  split
  next ho =>
    refine recount_eq_self fun r hr => if_neg fun hid => ?_
    rw [owns, decide_eq_true ho, Bool.true_and, List.any_eq_false] at hn
    exact hn r hr (decide_eq_true hid)
  next => rfl

end Log

namespace Index

variable {ix : Index} {l : Log}

/-! ### Marks -/

/-- The entry of a handle can be marked when the log has it. -/
theorem isLive_eq_owns (ix : Index) (h : Handle) : ix.isLive h = ix.log.owns h := by
  rw [Bool.eq_iff_iff, isLive_iff, Log.owns, log_owner, log_records, Ledger.any_live_eq,
    Bool.and_eq_true, decide_eq_true_iff]

theorem Follows.mark (h : ix.Follows l) (e : Handle) :
    (ix.mark e).state.Follows (l.mark e) ∧ (ix.mark e).answer = l.owns e := by
  obtain ⟨h, rfl⟩ := h
  rw [Index.mark, isLive_eq_owns]
  cases ho : ix.log.owns e with
  | false =>
    rw [Log.mark_of_not_owns ho]
    exact ⟨h.follows, rfl⟩
  | true =>
    have howner : e.owner = ix.log.owner := by
      rw [Log.owns, Bool.and_eq_true] at ho
      exact of_decide_eq_true ho.1
    have hlog : ({ ix with ledger := ix.ledger.modify e.id Entry.hit } : Index).log =
        ix.log.recount fun r => if r.id = e.id then r.hits + 1 else r.hits := by
      simp [log, Log.recount, Ledger.records_hit]
    rw [Log.mark, if_pos howner]
    exact ⟨⟨h.recount hlog, hlog⟩, rfl⟩

/-- Marks on different entries count each of them once. -/
theorem Follows.markAll (h : ix.Follows l) {ids : List EntryId} (hn : ids.Nodup) :
    (ix.markAll ids).state.Follows
      (l.recount fun r => if r.id ∈ ids then r.hits + 1 else r.hits) := by
  induction ids generalizing ix l with
  | nil =>
    rw [Log.recount_eq_self fun r _ => by simp]
    exact h
  | cons id ids ih =>
    obtain ⟨hid, hn⟩ := List.nodup_cons.1 hn
    have hm := (h.mark (ix.handle id)).1
    have howner : (ix.handle id).owner = l.owner := by rw [← h.log_eq]; rfl
    have hall := ih hm hn
    rw [Log.mark, if_pos howner, Log.recount_recount] at hall
    have hhits : ∀ r ∈ l.records,
        (if r.id ∈ id :: ids then r.hits + 1 else r.hits) =
          if r.id ∈ ids then (if r.id = id then r.hits + 1 else r.hits) + 1
          else if r.id = id then r.hits + 1 else r.hits := by
      intro r _
      by_cases e : r.id = id
      · simp [e, hid]
      · simp [e]
    rw [Log.recount_congr hhits]
    exact hall

/-! ### Clearing -/

theorem Follows.clearHits (h : ix.Follows l) : ix.clearHits.state.Follows l.clearHits := by
  obtain ⟨h, rfl⟩ := h
  have hlog : ix.clearHits.state.log = ix.log.clearHits := by
    have hmem : ∀ r ∈ ix.ledger.records, (if r.id ∈ ix.storedIds then 0 else r.hits) = 0 :=
      fun r hr => if_pos (h.storedIds_perm.mem_iff.2 (List.mem_map_of_mem hr))
    rw [Log.clearHits, ← Log.recount_congr hmem]
    simp only [log, Index.clearHits, Log.recount, Ledger.records_clear, Ledger.size_foldl_modify]
  exact ⟨h.recount hlog, hlog⟩

end Index

end HashJoin
