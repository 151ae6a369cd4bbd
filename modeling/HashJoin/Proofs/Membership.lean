import HashJoin.Proofs.Finality

/-! Storing what is new. Before a solution is stored that may be there already, only the bucket
of its own key is looked at. That is enough: a stored solution equal to it has the same key, and
the buckets hold just the live entries. So the answer holds for the whole index, whatever was
stored twice, removed or consumed before; the one entry that comes in goes to the end of the
bucket, and a solution that is refused leaves nothing but a count behind. -/

namespace HashJoin

namespace Log

/-- The log of an index has a solution when a live entry has it. -/
theorem holds_log {ix : Index} {s : Solution} : ix.log.holds s = true ↔
    ∃ (id : EntryId) (e : Entry), ix.ledger[id]? = some e ∧ e.live = true ∧ e.solution = s := by
  rw [holds, List.any_eq_true]
  constructor
  · rintro ⟨r, hr, hs⟩
    exact ⟨r.id, r.entry, Index.ledger_of_mem hr, rfl, of_decide_eq_true hs⟩
  · rintro ⟨id, ⟨s', n, live⟩, he, hl, hs⟩
    obtain rfl : live = true := hl
    exact ⟨⟨id, s', n⟩, Ledger.mem_records.2 he, decide_eq_true hs⟩

end Log

namespace Index

variable {ix : Index} {k : Key} {s : Solution}

/-- From `before` to `after` one entry comes in, without hits and at the end of the bucket of a
key, and nothing else happens: the other buckets stay as they are. An ordered map and one by
arrival also keep them in their order; a hash map, which is listed by key, has none to keep. -/
structure Gains (before after : Index) (k : Key) (s : Solution) : Prop where
  owner : after.owner = before.owner
  config : after.config = before.config
  kind : after.buckets.kind = before.buckets.kind
  ledger : after.ledger = before.ledger.push { solution := s, hits := 0, live := true }
  bucket : after.buckets.get? k =
    some ((before.buckets.get? k).getD [] ++ [before.ledger.size])
  others : (after.buckets.toList.filter fun p => p.1 ≠ k) =
    before.buckets.toList.filter fun p => p.1 ≠ k
  stored : after.stored = before.stored + 1
  bucketCount : after.bucketCount =
    if (before.buckets.get? k).isNone then before.bucketCount + 1 else before.bucketCount

theorem gains_append (ix : Index) (k : Key) (s : Solution) : ix.Gains (ix.append k s) k s where
  owner := rfl
  config := rfl
  kind := (Becomes.append (.refl ix) k s).kind
  ledger := rfl
  bucket := by
    change ((ix.buckets.ensure k).modify k (· ++ [ix.ledger.size])).get? k = _
    rw [Buckets.get?_modify, if_pos rfl, Buckets.get?_ensure, if_pos rfl, Option.map_some]
  others := (Buckets.filter_toList_modify _ k _).trans (ix.buckets.filter_toList_ensure k)
  stored := rfl
  bucketCount := (Buckets.size_modify _ k _).trans (ix.buckets.size_ensure k)

/-- A solution is new when it has a key and no live entry has it. -/
theorem Coherent.insertNew_answer_iff (h : ix.Coherent) : (ix.insertNew s).answer = true ↔
    (∃ k, ix.keying s = .key k) ∧
      ∀ (id : EntryId) (e : Entry), ix.ledger[id]? = some e → e.live = true → e.solution ≠ s := by
  have hkey : (ix.keying s).isMissing = false ↔ ∃ k, ix.keying s = .key k := by
    cases ix.keying s <;> simp [Keying.isMissing]
  have hnew : ix.log.holds s = false ↔
      ∀ (id : EntryId) (e : Entry), ix.ledger[id]? = some e → e.live = true → e.solution ≠ s := by
    rw [Bool.eq_false_iff, ne_eq, Log.holds_log]
    simp only [not_exists, not_and, ne_eq]
  rw [h.follows.insertNew_answer, Bool.and_eq_true, Bool.not_eq_true', Bool.not_eq_true',
    hnew, ← hkey]
  rfl

/-- What is new is stored under its key. -/
theorem insertNew_of_new (hs : (ix.insertNew s).answer = true) :
    ∃ k, ix.keying s = .key k ∧ (ix.insertNew s).state = ix.append k s := by
  rw [Index.insertNew] at hs ⊢
  cases hk : ix.keying s with
  | missing v => rw [hk] at hs; contradiction
  | key k =>
    rw [hk, insertNewKeyed] at hs
    rw [insertNewKeyed]
    split at hs
    next => contradiction
    next hn => exact ⟨k, rfl, by rw [if_neg hn]⟩

/-- What is not stored changes nothing. -/
theorem insertNew_of_refused (hs : (ix.insertNew s).answer = false) :
    (ix.insertNew s).state = ix := by
  rw [Index.insertNew] at hs ⊢
  cases hk : ix.keying s with
  | missing v => rfl
  | key k =>
    rw [hk, insertNewKeyed] at hs
    rw [insertNewKeyed]
    split at hs
    next hheld => rw [if_pos hheld]
    next => contradiction

end Index

namespace AnyIndex

variable {ix : AnyIndex}

/-- A shared index stores what is new as the index inside does. -/
theorem Coherent.perform_insertNew (h : ix.Coherent) (s : Solution) :
    ix.perform (.insertNew s) = (ix.core.insertNew s).map ix.withCore .flag := by
  cases ix with
  | base ix => rfl
  | shared ix =>
    have hconfig : ix.config = ix.core.config := SharedIndex.Follows.config_eq h
    change ((ix.insertNew s).map id Reply.flag).map shared id = _
    rw [SharedIndex.insertNew, SharedIndex.keying, hconfig]
    rfl

end AnyIndex

namespace Session

variable {specs : List IndexSpec} {s : Session}

/-- At any time an index stores a solution as a new one exactly when it has a key and no live
entry of the index has an equal one. If so it comes in as the last entry of its bucket; if not,
nothing changes but the counters. -/
theorem run_stores_new (h : ofSpecs specs = .ok s) (ops : List Op) {place : Nat} {ix : AnyIndex}
    (hix : (s.run ops).1.indices[place]? = some ix) (t : Solution) :
    let last := (s.run ops).1
    let step := last.step (.on place (.insertNew t))
    (step.2 = .flag true ↔ (∃ k, ix.core.keying t = .key k) ∧
      ∀ (e : Handle) (entry : Entry), e.owner = place → last.entry? e = some entry →
        entry.live = true → entry.solution ≠ t) ∧
    (step.2 = .flag true → ∃ k core, ix.core.keying t = .key k ∧ ix.core.Gains core k t ∧
      step.1 = { last with
        indices := last.indices.set place (ix.withCore core), counters := step.1.counters }) ∧
    (step.2 ≠ .flag true → step = ({ last with counters := step.1.counters }, .flag false)) := by
  intro last step
  obtain ⟨spec, -, hmade⟩ := (madeBy_of_ofSpecs h).run ops place ix hix
  have hcoherent : ix.core.Coherent := hmade.coherent.core.coherent
  have hstep : step = ({ last with
      indices := last.indices.set place (ix.withCore (ix.core.insertNew t).state)
      counters := last.counters + (ix.core.insertNew t).counters },
      .flag (ix.core.insertNew t).answer) :=
    step_on_map hix (hmade.coherent.perform_insertNew t)
  have hflag : step.2 = .flag true ↔ (ix.core.insertNew t).answer = true := by
    rw [hstep, Reply.flag.injEq]
  have hentry : ∀ id, last.entry? ⟨place, id⟩ = ix.core.ledger[id]? :=
    fun id => entry_of_index (e := ⟨place, id⟩) hix
  refine ⟨?_, fun hyes => ?_, fun hno => ?_⟩
  · rw [hflag, hcoherent.insertNew_answer_iff]
    refine and_congr_right fun _ => ⟨?_, fun hnew id entry he => ?_⟩
    · rintro hnew ⟨_, id⟩ entry rfl he
      exact hnew id entry ((hentry id).symm.trans he)
    · exact hnew ⟨place, id⟩ entry rfl ((hentry id).trans he)
  · obtain ⟨k, hk, hstate⟩ := Index.insertNew_of_new (hflag.1 hyes)
    refine ⟨k, (ix.core.insertNew t).state, hk, hstate ▸ ix.core.gains_append k t, ?_⟩
    rw [hstep]
  · have hno := Bool.not_eq_true _ ▸ mt hflag.2 hno
    rw [hstep, hno, Index.insertNew_of_refused hno, set_withCore_core hix]

/-- Two equal entries are consumed, so that their solution is new again, though the other index
has one like it. A solution that leaves the join variable unbound is there twice and not new. -/
theorem run_stores_new_consumed :
    let s := Solution.ofBindings [(⟨"x"⟩, .integer 1)]
    let t := Solution.ofBindings [(⟨"y"⟩, .integer 1)]
    let specs : List IndexSpec := [⟨false, .forOperator .inner [⟨"x"⟩], none⟩,
      ⟨true, .forOperator .optional [⟨"x"⟩], some (.empty .arrival)⟩]
    let ops : List Op := [.on 0 (.insertNew s), .on 1 (.insertAll [s, t, s]), .on 1 (.insert t),
      .on 1 (.consume .semi s)]
    ∃ start ix, ofSpecs specs = .ok start ∧ (start.run ops).1.indices[1]? = some ix ∧
      let last := (start.run ops).1
      let step := last.step (.on 1 (.insertNew s))
      let other := last.step (.on 1 (.insertNew t))
      (∀ (e : Handle) (entry : Entry), e.owner = 1 → last.entry? e = some entry →
        entry.live = true → entry.solution ≠ s) ∧
      (∃ k core, ix.core.keying s = .key k ∧ ix.core.Gains core k s ∧ step.1 = { last with
        indices := last.indices.set 1 (ix.withCore core), counters := step.1.counters }) ∧
      other = ({ last with counters := other.1.counters }, .flag false) := by
  intro s t specs ops
  have hmade : ∃ start ix, ofSpecs specs = .ok start ∧
      (start.run ops).1.indices[1]? = some ix ∧
      ((start.run ops).1.step (.on 1 (.insertNew s))).2 = .flag true ∧
      ((start.run ops).1.step (.on 1 (.insertNew t))).2 ≠ .flag true := by
    subst ops specs t s
    exact ⟨_, _, rfl, rfl, by decide +kernel, by decide +kernel⟩
  obtain ⟨start, ix, h, hix, hyes, hno⟩ := hmade
  obtain ⟨hnew, hgains, -⟩ := run_stores_new h ops hix s
  exact ⟨start, ix, h, hix, (hnew.1 hyes).2, hgains hyes, (run_stores_new h ops hix t).2.2 hno⟩

end Session

end HashJoin
