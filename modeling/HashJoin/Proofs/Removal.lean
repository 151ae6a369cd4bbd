import HashJoin.Proofs.Consuming
import HashJoin.Proofs.Independence

/-! One removal. An index looks for a number in the bucket of a key and at nothing else: not
at the key of the entry, nor at whether it is live. Yet it finds the number exactly when the
entry is its own, is live and has that key, since a live entry lies in one bucket, which is
that of its key, and a removed one in none. What is found goes out, alone; what is not found
leaves no trace, not even in the counters. -/

namespace HashJoin

namespace Index

variable {ix : Index} {k : Key} {e : Handle}

/-- The entry of a handle is found under the key that it has, if it is a live one of this index. -/
theorem Coherent.remove_answer (h : ix.Coherent) : (ix.remove k e).answer = true ↔
    e.owner = ix.owner ∧ ∃ entry, ix.ledger[e.id]? = some entry ∧ entry.live = true ∧
      ix.keying entry.solution = .key k := by
  rw [(h.follows.remove k e).2, Log.ownsUnder_eq, decide_eq_true_iff, Log.mem_chainIds]
  refine and_congr_right fun _ => ⟨?_, ?_⟩
  · rintro ⟨r, hr, hid⟩
    obtain ⟨hr, hk⟩ := Log.mem_chain.1 hr
    exact ⟨r.entry, hid ▸ ledger_of_mem hr, rfl, hk⟩
  · rintro ⟨⟨s, n, live⟩, he, hl, hk⟩
    obtain rfl : live = true := hl
    exact ⟨⟨e.id, s, n⟩, Log.mem_chain.2 ⟨Ledger.mem_records.2 he, hk⟩, rfl⟩

/-- From `before` to `after` one entry goes out of the bucket of a key, and nothing else
happens: every other entry keeps its hits and its place in its bucket, and no other bucket
changes. The order of the buckets stays where the map has one; a hash map is listed by key. -/
structure Removes (before after : Index) (k : Key) (id : EntryId) : Prop where
  owner : after.owner = before.owner
  config : after.config = before.config
  kind : after.buckets.kind = before.buckets.kind
  entry : ∀ id', after.ledger[id']? =
    if id' = id then before.ledger[id']?.map Entry.retire else before.ledger[id']?
  stored : after.stored + 1 = before.stored
  bucketCount : after.bucketCount + (if before.buckets.get? k = some [id] then 1 else 0) =
    before.bucketCount
  buckets : after.buckets.toList = Buckets.without before.buckets.toList [id]

theorem Coherent.length_storedIds (h : ix.Coherent) : ix.storedIds.length = ix.stored := by
  rw [h.storedIds_perm.length_eq, List.length_map, h.stored]

/-- A bucket that is dropped is counted. -/
theorem bucketCount_remove (ix : Index) (k : Key) (e : Handle) :
    (ix.remove k e).state.bucketCount + (ix.remove k e).counters.bucketsDropped =
      ix.bucketCount := by
  rw [remove]
  cases hb : ix.buckets.get? k with
  | none => rfl
  | some bucket =>
    dsimp only [bucketCount]
    split
    next =>
      dsimp only
      split
      next => exact Buckets.size_erase hb
      next => exact ix.buckets.size_modify k _
    next => rfl

/-- Only the removal of the last entry of a bucket drops it. -/
theorem counters_remove {bucket : Bucket} (hb : ix.buckets.get? k = some bucket)
    (ho : e.owner = ix.owner) (hid : e.id ∈ bucket) : (ix.remove k e).counters =
      { removals := 1, bucketsDropped := if bucket = [e.id] then 1 else 0 } := by
  have hlast : (bucket.erase e.id).isEmpty = true ↔ bucket = [e.id] := by
    rw [List.isEmpty_iff, List.erase_eq_nil_iff, or_iff_right (List.ne_nil_of_mem hid)]
  rw [remove, hb]
  simp only [if_pos (And.intro ho hid), if_congr hlast rfl rfl]

/-- What is found is removed, and nothing else. -/
theorem Coherent.removes (h : ix.Coherent) (ha : (ix.remove k e).answer = true) :
    ix.Removes (ix.remove k e).state k e.id := by
  have hown := (h.follows.remove k e).2.symm.trans ha
  rw [Log.ownsUnder_eq, decide_eq_true_iff, ← h.getD] at hown
  obtain ⟨howner, hid⟩ := hown
  obtain ⟨bucket, hb⟩ : ∃ bucket, ix.buckets.get? k = some bucket := by
    cases hb : ix.buckets.get? k with
    | none => rw [hb] at hid; exact absurd hid List.not_mem_nil
    | some bucket => exact ⟨bucket, rfl⟩
  have hbecomes := h.becomes_remove k e
  have hbuckets : (ix.remove k e).state.buckets.toList =
      Buckets.without ix.buckets.toList [e.id] := by
    obtain ⟨owner, id⟩ := e
    obtain rfl : owner = ix.owner := howner
    exact h.toList_remove hid
  rw [hb, Option.getD_some] at hid
  refine ⟨hbecomes.owner, hbecomes.config, hbecomes.kind, fun id' => ?_, ?_, ?_, hbuckets⟩
  · rw [(h.changes_remove k e).entry, ha, if_pos rfl]
    simp only [List.mem_singleton]
  · -- the number is stored once, so that one is lost of those that are stored
    have hids : (ix.remove k e).state.storedIds = ix.storedIds.erase e.id := by
      rw [storedIds, hbuckets, Buckets.flatMap_without, h.wellFormed.nodup.erase_eq_filter]
      exact List.filter_congr fun id' _ => by simp [bne, beq_eq_decide]
    rw [← h.length_storedIds, ← (h.follows.remove k e).1.coherent.length_storedIds, hids]
    exact List.length_erase_add_one (mem_storedIds hb hid)
  · have hcount := ix.bucketCount_remove k e
    rw [counters_remove hb howner hid] at hcount
    simpa only [hb, Option.some.injEq] using hcount

end Index

/-- A shared index removes as the index inside does. -/
theorem SharedIndex.perform_remove (ix : SharedIndex) (k : Key) (e : Handle) :
    (AnyIndex.shared ix).perform (.remove k e) =
      (ix.core.remove k e).map (fun core => .shared { ix with core }) .flag := rfl

namespace Session

variable {specs : List IndexSpec} {s : Session}

/-- At any time a shared index removes an entry under a key exactly when it made the entry,
the entry is live and its solution has that key. If so the entry goes and nothing else does;
if not, all is as before. -/
theorem run_removes_exactly (h : ofSpecs specs = .ok s) (ops : List Op) {place : Nat}
    {ix : SharedIndex} (hix : (s.run ops).1.indices[place]? = some (.shared ix)) (k : Key)
    (e : Handle) :
    let last := (s.run ops).1
    let step := last.step (.on place (.remove k e))
    (step.2 = .flag true ↔ e.owner = place ∧ ∃ entry, last.entry? e = some entry ∧
      entry.live = true ∧ ix.keying entry.solution = .key k) ∧
    (step.2 = .flag true → ∃ ix' : SharedIndex,
      step.1.indices = last.indices.set place (.shared ix') ∧ step.1.cursors = last.cursors ∧
      ix'.config = ix.config ∧ ix.core.Removes ix'.core k e.id) ∧
    (step.2 ≠ .flag true → step = (last, .flag false)) := by
  intro last step
  obtain ⟨spec, -, hmade⟩ := (madeBy_of_ofSpecs h).run ops place _ hix
  have hcoherent : ix.core.Coherent := hmade.coherent.core.coherent
  have hconfig : ix.config = ix.core.config := SharedIndex.Follows.config_eq hmade.coherent
  have howner : ix.core.owner = place := hmade.owner
  have hkeying : ∀ t, ix.keying t = ix.core.keying t := by
    intro t
    rw [SharedIndex.keying, hconfig, Index.keying]
  have hstep : step = ({ last with
      indices := last.indices.set place (.shared { ix with core := (ix.core.remove k e).state })
      counters := last.counters + (ix.core.remove k e).counters },
      .flag (ix.core.remove k e).answer) := by
    simp only [step, last, Session.step, hix, ix.perform_remove]
    rfl
  have hflag : step.2 = .flag true ↔ (ix.core.remove k e).answer = true := by
    rw [hstep, Reply.flag.injEq]
  refine ⟨?_, fun hyes => ?_, fun hno => ?_⟩
  · rw [hflag, hcoherent.remove_answer, howner]
    refine and_congr_right fun he => ?_
    have hentry : last.entry? e = ix.core.ledger[e.id]? := entry_of_index (he ▸ hix)
    simp only [hentry, hkeying]
  · exact ⟨{ ix with core := (ix.core.remove k e).state }, congrArg (·.1.indices) hstep,
      congrArg (·.1.cursors) hstep, rfl, hcoherent.removes (hflag.1 hyes)⟩
  · have hno := Bool.not_eq_true _ ▸ mt hflag.2 hno
    exact step_on_eq hix (AnyIndex.perform_remove_refused hno)

/-- Of two entries under one key the first is removed. It stood in the first bucket, which
stays, and the other index has an entry with the same number and the same solution. -/
theorem run_removes_exactly_arrival :
    let s := Solution.ofBindings [(⟨"x"⟩, .integer 1)]
    let t := Solution.ofBindings [(⟨"x"⟩, .integer 2)]
    let k := Key.ofSlots [some (.integer 1)]
    let source := ConfigSource.ofSettings [.vars [⟨"x"⟩]]
    let specs : List IndexSpec := [⟨true, source, none⟩, ⟨true, source, some (.empty .arrival)⟩]
    let ops : List Op := [.on 0 (.insert s), .on 1 (.insertAll [s, t, s]), .on 1 (.mark ⟨1, 2⟩)]
    ∃ start ix, ofSpecs specs = .ok start ∧
      (start.run ops).1.indices[1]? = some (.shared ix) ∧
      let last := (start.run ops).1
      let step := last.step (.on 1 (.remove k ⟨1, 0⟩))
      let foreign := last.step (.on 1 (.remove k ⟨0, 0⟩))
      step.2 = .flag true ∧
      (∃ ix' : SharedIndex, step.1.indices = last.indices.set 1 (.shared ix') ∧
        step.1.cursors = last.cursors ∧ ix'.config = ix.config ∧
        ix.core.Removes ix'.core k 0) ∧
      foreign.2 ≠ .flag true ∧ foreign = (last, .flag false) := by
  intro s t k source specs ops
  have hmade : ∃ start ix, ofSpecs specs = .ok start ∧
      (start.run ops).1.indices[1]? = some (.shared ix) ∧
      ((start.run ops).1.step (.on 1 (.remove k ⟨1, 0⟩))).2 = .flag true ∧
      ((start.run ops).1.step (.on 1 (.remove k ⟨0, 0⟩))).2 ≠ .flag true := by
    subst ops specs source k t s
    exact ⟨_, _, rfl, rfl, by decide +kernel, by decide +kernel⟩
  obtain ⟨start, ix, h, hix, hyes, hno⟩ := hmade
  exact ⟨start, ix, h, hix, hyes, (run_removes_exactly h ops hix k ⟨1, 0⟩).2.1 hyes, hno,
    (run_removes_exactly h ops hix k ⟨0, 0⟩).2.2 hno⟩

end Session

end HashJoin
