import HashJoin.Proofs.Log.Representation

/-! Storing, as the log sees it. A solution that has a key is put at the end of the log,
and at the end of the bucket of that key. Whether an equal solution is stored is asked of
one bucket only, and the answer is that for the whole log, because equal solutions have
equal keys. -/

namespace HashJoin

namespace Index

variable {ix : Index} {l : Log}

theorem Coherent.append (h : ix.Coherent) {k : Key} {s : Solution}
    (hk : ix.config.keying s = .key k) : (ix.append k s).Follows (ix.log.append s) := by
  have hlog : (ix.append k s).log = ix.log.append s := by
    simp [log, Index.append, Log.append, Ledger.records_push]
  have hf : ∀ k', ix.config.forms k' s = true ↔ k' = k := by
    intro k'
    rw [Config.forms_iff, hk, Keying.key.injEq, eq_comm]
  refine ⟨⟨?_, fun k' => ?_, ?_⟩, hlog⟩
  · rw [hlog]
    intro r hr
    rcases List.mem_append.1 hr with hr | hr
    · exact h.keyed r hr
    · obtain rfl := List.mem_singleton.1 hr
      exact ⟨k, hk⟩
  · rw [hlog, Log.chainIds_append]
    change ((ix.buckets.ensure k).modify k (· ++ [ix.ledger.size])).get? k' = _
    rw [Buckets.get?_modify, Buckets.get?_ensure, Buckets.get?_ensure, if_pos rfl, h.getD]
    by_cases e : k' = k
    · subst e
      simp [(hf k').2 rfl]
    · have : ix.config.forms k' s = false := Bool.eq_false_iff.2 fun hs => e ((hf k').1 hs)
      simp [e, this, h.get?]
  · rw [hlog]
    simp [Index.append, Log.append, h.stored]

/-! ### One solution -/

theorem Follows.insert (h : ix.Follows l) (s : Solution) :
    (ix.insert s).state.Follows (l.insert s) := by
  obtain ⟨h, rfl⟩ := h
  rw [Index.insert, keying, Log.insert, log_config]
  cases hk : ix.config.keying s with
  | key k => exact h.append hk
  | missing v => exact h.follows

theorem Follows.insert_answer (h : ix.Follows l) (s : Solution) :
    (ix.insert s).answer = if (l.config.keying s).isMissing then none else some l.next := by
  obtain ⟨-, rfl⟩ := h
  rw [Index.insert, keying, log_config]
  cases ix.config.keying s with
  | key k => rfl
  | missing v => rfl

/-! ### Many solutions -/

theorem Follows.foldl_addKeyed (h : ix.Follows l) (n : Intake) (solutions : List Solution) :
    (((solutions.map fun s => (ix.config.keying s, s)).foldl addKeyed (ix, n)).1.Follows
      (l.insertAll solutions)) ∧
    ((solutions.map fun s => (ix.config.keying s, s)).foldl addKeyed (ix, n)).2 =
      ⟨n.stored + solutions.countP fun s => !(l.config.keying s).isMissing,
        n.rejected + solutions.countP fun s => (l.config.keying s).isMissing⟩ := by
  induction solutions generalizing ix l n with
  | nil => exact ⟨h, rfl⟩
  | cons s solutions ih =>
    have hi := h.insert s
    obtain ⟨h, rfl⟩ := h
    rw [List.map_cons, List.foldl_cons, Log.insertAll, List.foldl_cons, ← Log.insertAll]
    rw [Index.insert, keying] at hi
    cases hk : ix.config.keying s with
    | key k =>
      have hc : (ix.append k s).config = ix.config := rfl
      rw [hk] at hi
      obtain ⟨ihs, ihn⟩ := ih hi { n with stored := n.stored + 1 }
      have hlc : (ix.log.insert s).config = ix.config := by rw [← hi.log_eq]; rfl
      refine ⟨ihs, ihn.trans ?_⟩
      simp [hlc, hk, Keying.isMissing, Nat.add_assoc, Nat.add_comm 1]
    | missing v =>
      rw [hk] at hi
      obtain ⟨ihs, ihn⟩ := ih hi { n with rejected := n.rejected + 1 }
      have hlc : (ix.log.insert s).config = ix.config := by rw [← hi.log_eq]; rfl
      refine ⟨ihs, ihn.trans ?_⟩
      simp [hlc, hk, Keying.isMissing, Nat.add_assoc, Nat.add_comm 1]

theorem Follows.insertAll (h : ix.Follows l) (solutions : List Solution) :
    (ix.insertAll solutions).state.Follows (l.insertAll solutions) :=
  (h.foldl_addKeyed {} solutions).1

theorem Follows.insertAll_answer (h : ix.Follows l) (solutions : List Solution) :
    (ix.insertAll solutions).answer =
      ⟨solutions.countP fun s => !(l.config.keying s).isMissing,
        solutions.countP fun s => (l.config.keying s).isMissing⟩ :=
  (h.foldl_addKeyed {} solutions).2.trans (by simp)

/-! ### Solutions that are not there -/

/-- Only the bucket of its own key can hold a solution. -/
theorem Coherent.any_holds (h : ix.Coherent) {k : Key} {s : Solution}
    (hk : ix.config.keying s = .key k) :
    (ix.buckets.get? k).any (ix.holds · s) = ix.log.holds s := by
  have hany : (ix.buckets.get? k).any (ix.holds · s) = ix.holds (ix.log.chainIds k) s := by
    rw [h.get?]
    split
    next hn => rw [hn]; rfl
    next => rfl
  have hid : ∀ r ∈ ix.log.chain k,
      ix.ledger[r.id]?.any (·.solution = s) = decide (r.solution = s) := by
    intro r hr
    rw [ledger_of_mem (Log.mem_chain.1 hr).1]
    rfl
  rw [hany, holds, Log.chainIds, List.any_map, Log.holds, Bool.eq_iff_iff, List.any_eq_true,
    List.any_eq_true]
  constructor
  · rintro ⟨r, hr, hs⟩
    exact ⟨r, (Log.mem_chain.1 hr).1, (hid r hr).symm.trans hs⟩
  · rintro ⟨r, hr, hs⟩
    have hr : r ∈ ix.log.chain k := Log.mem_chain.2 ⟨hr, of_decide_eq_true hs ▸ hk⟩
    exact ⟨r, hr, (hid r hr).trans hs⟩

theorem Follows.insertNew (h : ix.Follows l) (s : Solution) :
    (ix.insertNew s).state.Follows (l.insertNew s) := by
  obtain ⟨h, rfl⟩ := h
  rw [Index.insertNew, keying, Log.insertNew, Log.insert, log_config]
  cases hk : ix.config.keying s with
  | key k =>
    rw [insertNewKeyed, h.any_holds hk]
    cases ix.log.holds s with
    | true => exact h.follows
    | false => exact h.append hk
  | missing v => simpa [insertNewKeyed, Keying.isMissing] using h.follows

theorem Follows.insertNew_answer (h : ix.Follows l) (s : Solution) :
    (ix.insertNew s).answer = (!(l.config.keying s).isMissing && !l.holds s) := by
  obtain ⟨h, rfl⟩ := h
  rw [Index.insertNew, keying, log_config]
  cases hk : ix.config.keying s with
  | key k =>
    rw [insertNewKeyed, h.any_holds hk]
    cases ix.log.holds s <;> rfl
  | missing v => rfl

end Index

end HashJoin
