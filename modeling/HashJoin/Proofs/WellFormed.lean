import HashJoin.Proofs.History
import HashJoin.Proofs.Log.Turnover
import HashJoin.Session
import Mathlib.Algebra.Ring.Nat

/-! What holds of an index at any time. Its map, its ledger and its count are changed by
separate statements of every operation, and still agree after each: no bucket is empty, an
entry lies under its own key, the numbers in a bucket rise, the count is the number of stored
entries, and exactly the stored entries are live. So it is in a session too, where handles
to entries of one index are offered to another, where keys are wrong and entries long gone. -/

namespace HashJoin

namespace Index

structure WellFormed (ix : Index) : Prop where
  nonempty : ∀ k bucket, (k, bucket) ∈ ix.buckets.toList → bucket ≠ []
  /-- The entries of a bucket have its key. -/
  keyed : ∀ k bucket, (k, bucket) ∈ ix.buckets.toList → ∀ id ∈ bucket,
    ∃ e, ix.ledger[id]? = some e ∧ ix.keying e.solution = .key k
  /-- Equal solutions lie in one bucket. -/
  together : ∀ k bucket k' bucket', (k, bucket) ∈ ix.buckets.toList →
    (k', bucket') ∈ ix.buckets.toList → ∀ id ∈ bucket, ∀ id' ∈ bucket',
      (ix.ledger[id]?).map Entry.solution = (ix.ledger[id']?).map Entry.solution → k = k'
  rising : ∀ k bucket, (k, bucket) ∈ ix.buckets.toList → bucket.Pairwise (· < ·)
  /-- No number is stored twice. -/
  nodup : ix.storedIds.Nodup
  /-- The next number, which is the size of the ledger, has not been given to an entry. -/
  below : ∀ id ∈ ix.storedIds, id < ix.ledger.size
  stored : ix.stored = (ix.buckets.toList.map fun p => p.2.length).sum
  live : ∀ id, ix.ledger[id]?.any Entry.live = true ↔ id ∈ ix.storedIds

variable {ix : Index}

theorem Coherent.keyed_of_mem (h : ix.Coherent) {k : Key} {bucket : Bucket}
    (hm : (k, bucket) ∈ ix.buckets.toList) {id : EntryId} (hid : id ∈ bucket) :
    ∃ e, ix.ledger[id]? = some e ∧ ix.keying e.solution = .key k := by
  rw [(h.mem_toList_iff.1 hm).1] at hid
  obtain ⟨r, hr, rfl⟩ := Log.mem_chainIds.1 hid
  obtain ⟨hr, hk⟩ := Log.mem_chain.1 hr
  exact ⟨r.entry, ledger_of_mem hr, hk⟩

theorem Coherent.wellFormed (h : ix.Coherent) : ix.WellFormed where
  nonempty k bucket hm := (h.mem_toList_iff.1 hm).2
  keyed k bucket hm id hid := h.keyed_of_mem hm hid
  together k bucket k' bucket' hm hm' id hid id' hid' hs := by
    obtain ⟨e, he, hk⟩ := h.keyed_of_mem hm hid
    obtain ⟨e', he', hk'⟩ := h.keyed_of_mem hm' hid'
    rw [he, he', Option.map_some, Option.map_some, Option.some.injEq] at hs
    rw [hs, hk'] at hk
    exact (Keying.key.inj hk).symm
  rising k bucket hm := by
    rw [(h.mem_toList_iff.1 hm).1]
    exact List.pairwise_map.2 (ix.ledger.records_rising.sublist List.filter_sublist)
  nodup := h.storedIds_perm.nodup_iff.2 ix.ledger.nodup_ids
  below id hid := by
    obtain ⟨r, hr, rfl⟩ := List.mem_map.1 (h.storedIds_perm.mem_iff.1 hid)
    exact Ledger.id_lt_size hr
  stored := by
    rw [h.stored, ← List.length_map Record.id, ← h.storedIds_perm.length_eq, storedIds,
      List.length_flatMap]
  live _ := h.any_live

end Index

/-! ### Handles -/

namespace Snapshot

def handles (b : Snapshot) : List Handle := b.ids.map (⟨b.owner, ·⟩)

end Snapshot

namespace Reply

/-- The handles that a reply hands out. -/
def handles : Reply → List Handle
  | .entry (some e) => [e]
  | .bucket (some b) => b.handles
  | .buckets listed => listed.flatMap fun p => p.2.handles
  | _ => []

end Reply

namespace Log

variable {l : Log}

/-- The log has a record of the entry. -/
def Stores (l : Log) (e : Handle) : Prop := e.owner = l.owner ∧ ∃ r ∈ l.records, r.id = e.id

theorem handles_snapshot (l : Log) (k : Key) : ∀ e ∈ (l.snapshot (l.chain k)).handles, l.Stores e := by
  intro e he
  rw [Snapshot.handles, snapshot, List.map_map] at he
  obtain ⟨r, hr, rfl⟩ := List.mem_map.1 he
  exact ⟨rfl, r, (mem_chain.1 hr).1, rfl⟩

theorem handles_bucket (l : Log) (k : Key) :
    ∀ e ∈ (Reply.bucket ((l.bucket? k).map l.snapshot)).handles, l.Stores e := by
  intro e he
  rw [bucket?] at he
  split at he
  · exact absurd he List.not_mem_nil
  · exact l.handles_snapshot k e he

/-- A reply hands out entries that the log has, or the one that has just come in. -/
theorem handles_of_allows {isShared : Bool} {op : IndexOp} {reply : Reply}
    (h : l.Allows isShared op reply) : ∀ e ∈ reply.handles, l.Stores e ∨
      e = ⟨l.owner, l.next⟩ ∧ (l.step isShared op).next = l.next + 1 := by
  intro e he
  cases op with
  | insert s =>
    obtain rfl := h
    split at he
    · exact absurd he List.not_mem_nil
    next hm =>
      refine .inr ⟨List.mem_singleton.1 he, ?_⟩
      rw [step, insert, if_neg hm]
      rfl
  | lookup k =>
    obtain rfl := h
    exact .inl (l.handles_bucket k e he)
  | probe s =>
    obtain rfl := h
    cases hk : (l.config.keying s).key? with
    | none =>
      rw [hk] at he
      exact absurd he List.not_mem_nil
    | some k =>
      rw [hk] at he
      exact .inl (l.handles_bucket k e he)
  | removeBucket k =>
    obtain rfl := h
    cases isShared with
    | false => exact absurd he List.not_mem_nil
    | true => exact .inl (l.handles_bucket k e he)
  | buckets =>
    cases isShared with
    | true =>
      obtain rfl := h
      exact absurd he List.not_mem_nil
    | false =>
      obtain ⟨_, ⟨keys, -, rfl⟩, rfl⟩ := h
      obtain ⟨p, hp, he⟩ := List.mem_flatMap.1 he
      obtain ⟨k, -, rfl⟩ := List.mem_map.1 hp
      exact .inl (l.handles_snapshot k e he)
  | scan c limit =>
    obtain ⟨_, -, rfl⟩ := h
    exact absurd he List.not_mem_nil
  | remove k e' | consume op probe =>
    obtain rfl := h
    cases isShared <;> exact absurd he List.not_mem_nil
  | insertAll solutions | insertNew s | keying s | mark e' | clearHits | summary | config
    | join op probe | unshare =>
    obtain rfl := h
    exact absurd he List.not_mem_nil

end Log

namespace AnyIndex

/-- The index is well-formed, and a shared one forms keys as the index inside does. -/
def WellFormed : AnyIndex → Prop
  | base ix => ix.WellFormed
  | shared ix => ix.core.WellFormed ∧ ix.config = ix.core.config

variable {ix : AnyIndex}

theorem Coherent.wellFormed (h : ix.Coherent) : ix.WellFormed := by
  cases ix with
  | base ix => exact Index.Coherent.wellFormed (Index.Follows.coherent h)
  | shared ix =>
    exact ⟨(SharedIndex.Follows.core h).coherent.wellFormed, SharedIndex.Follows.config_eq h⟩

/-- The count of an index goes by what came in and what went out, so that no more is ever
taken from it than there is. -/
theorem Coherent.stored_perform (h : ix.Coherent) (op : IndexOp) :
    (ix.perform op).state.core.stored + (op.turnover (ix.perform op).answer).gone =
      ix.core.stored + (op.turnover (ix.perform op).answer).inserted := by
  obtain ⟨hs, ha, -⟩ := Follows.perform h op
  have hturns := Log.turns_step ix.core.ledger.nodup_ids ha
  have hlen := hturns.length
  rw [← hs.core.log_eq, ← hs.core.coherent.stored, ← h.core.coherent.stored] at hlen
  exact hlen

theorem Coherent.handles_perform (h : ix.Coherent) (op : IndexOp) :
    ∀ e ∈ (ix.perform op).answer.handles, e.owner = ix.core.owner ∧
      e.id < (ix.perform op).state.core.ledger.size := by
  obtain ⟨hs, ha, -⟩ := Follows.perform h op
  have hnext : (ix.perform op).state.core.ledger.size = (ix.core.log.step ix.isShared op).next := by
    rw [← hs.core.log_eq]
    rfl
  have hgrows := (Log.turns_step ix.core.ledger.nodup_ids ha).next
  rw [hnext]
  intro e he
  rcases Log.handles_of_allows ha e he with ⟨howner, r, hr, hid⟩ | ⟨rfl, hone⟩
  · have hlt : r.id < ix.core.log.next := Ledger.id_lt_size hr
    rw [hgrows, ← hid]
    exact ⟨howner, Nat.lt_add_right _ hlt⟩
  · rw [hone]
    exact ⟨rfl, Nat.lt_succ_self _⟩

/-- The index was made for a place as specified, and operations have been done on it. -/
structure Made (spec : IndexSpec) (place : Nat) (ix : AnyIndex) : Prop where
  coherent : ix.Coherent
  owner : ix.core.owner = place
  config : spec.source.config = .ok ix.core.config

theorem Made.perform {spec : IndexSpec} {place : Nat} (h : ix.Made spec place) (op : IndexOp) :
    (ix.perform op).state.Made spec place where
  coherent := h.coherent.perform op
  owner := (h.coherent.becomes_perform op).owner.trans h.owner
  config := by rw [(h.coherent.becomes_perform op).config, h.config]

end AnyIndex

namespace IndexSpec

/-- Each index is made as its specification says. -/
theorem index_of_indices {specs : List IndexSpec} {owner : Nat} {indices : List AnyIndex}
    (h : IndexSpec.indices owner specs = .ok indices) :
    ∀ (place : Nat) (ix : AnyIndex), indices[place]? = some ix →
      ∃ spec, specs[place]? = some spec ∧ spec.index (owner + place) = .ok ix := by
  induction specs generalizing owner indices with
  | nil =>
    cases h
    intro place ix hix
    contradiction
  | cons spec specs ih =>
    rw [IndexSpec.indices] at h
    split at h
    next => contradiction
    next ix₀ h₀ =>
      cases hrest : IndexSpec.indices (owner + 1) specs with
      | error e =>
        rw [hrest] at h
        contradiction
      | ok rest =>
        rw [hrest] at h
        cases h
        intro place ix hix
        cases place with
        | zero =>
          obtain rfl : ix₀ = ix := Option.some.inj hix
          exact ⟨spec, rfl, h₀⟩
        | succ place =>
          obtain ⟨spec', hspec, hmade⟩ := ih hrest place ix hix
          have hplace : owner + (place + 1) = owner + 1 + place := by omega
          exact ⟨spec', hspec, hplace ▸ hmade⟩

theorem made_of_index {spec : IndexSpec} {place : Nat} {ix : AnyIndex}
    (h : spec.index place = .ok ix) : ix.Made spec place := by
  obtain ⟨config, hc, -, hf⟩ := follows_of_index h
  have hlog := hf.core.log_eq
  refine ⟨hf.coherent, congrArg Log.owner hlog, ?_⟩
  exact hc.trans (congrArg (Except.ok ·.config) hlog).symm

end IndexSpec

namespace Session

/-- A call of a lazy scan touches neither indices nor cursors, and no entry is handed out. -/
theorem step_nextLazy_same (s : Session) (c : Nat) :
    (s.step (.nextLazy c)).1.indices = s.indices ∧ (s.step (.nextLazy c)).1.cursors = s.cursors ∧
      (s.step (.nextLazy c)).2.handles = [] := by
  rw [step]
  split
  next => exact ⟨rfl, rfl, rfl⟩
  next found _ =>
    rw [readLazy]
    split <;> exact ⟨rfl, rfl, rfl⟩

/-- An operation of a session is done on one index, or on none. -/
theorem step_cases (s : Session) (op : Op) :
    ((∀ place indexOp, op = .on place indexOp → s.indices[place]? = none) ∧
      (s.step op).1.indices = s.indices ∧ (s.step op).2.handles = []) ∨
      ∃ place ix indexOp, op = .on place indexOp ∧ s.indices[place]? = some ix ∧
        (s.step op).1.indices = s.indices.set place (ix.perform indexOp).state ∧
        (s.step op).2 = (ix.perform indexOp).answer := by
  cases op with
  | on place indexOp =>
    cases hix : s.indices[place]? with
    | none =>
      left
      simp only [step, hix]
      refine ⟨?_, trivial, rfl⟩
      rintro _ _ ⟨⟩
      exact hix
    | some ix =>
      right
      exact ⟨place, ix, indexOp, rfl, hix, by simp only [step, hix], by simp only [step, hix]⟩
  | openScan place hitClass | openLazy place hitClass =>
    refine .inl ⟨nofun, ?_⟩
    rw [step]
    split <;> exact ⟨rfl, rfl⟩
  | next c | rest c =>
    refine .inl ⟨nofun, ?_⟩
    rw [step, readCursor]
    split <;> exact ⟨rfl, rfl⟩
  | nextLazy c =>
    obtain ⟨hindices, -, hhandles⟩ := s.step_nextLazy_same c
    exact .inl ⟨nofun, hindices, hhandles⟩

/-- The index at a place becomes another one only by an operation on that place. -/
theorem step_at (s : Session) (op : Op) (place : Nat) :
    ((∀ indexOp, op = .on place indexOp → s.indices[place]? = none) ∧
      (s.step op).1.indices[place]? = s.indices[place]?) ∨
      ∃ ix indexOp, op = .on place indexOp ∧ s.indices[place]? = some ix ∧
        (s.step op).1.indices[place]? = some (ix.perform indexOp).state := by
  rcases s.step_cases op with ⟨hnone, hsame, -⟩ | ⟨place', ix, indexOp, rfl, hix, hset, -⟩
  · exact .inl ⟨hnone place, by rw [hsame]⟩
  · rw [hset]
    by_cases hp : place' = place
    · subst hp
      obtain ⟨hlt, -⟩ := List.getElem?_eq_some_iff.1 hix
      exact .inr ⟨ix, indexOp, rfl, hix, List.getElem?_set_self hlt⟩
    · refine .inl ⟨?_, List.getElem?_set_ne hp⟩
      rintro _ ⟨⟩
      contradiction

/-- Every index was made for its place as specified. -/
def MadeBy (specs : List IndexSpec) (s : Session) : Prop :=
  ∀ (place : Nat) (ix : AnyIndex), s.indices[place]? = some ix →
    ∃ spec, specs[place]? = some spec ∧ ix.Made spec place

theorem index_of_ofSpecs {specs : List IndexSpec} {s : Session} (h : ofSpecs specs = .ok s)
    {place : Nat} {ix : AnyIndex} (hix : s.indices[place]? = some ix) :
    ∃ spec, specs[place]? = some spec ∧ spec.index place = .ok ix := by
  rw [ofSpecs] at h
  cases hi : IndexSpec.indices 0 specs with
  | error e =>
    rw [hi] at h
    contradiction
  | ok indices =>
    rw [hi] at h
    cases h
    simpa only [Nat.zero_add] using IndexSpec.index_of_indices hi place ix hix

theorem madeBy_of_ofSpecs {specs : List IndexSpec} {s : Session} (h : ofSpecs specs = .ok s) :
    s.MadeBy specs := by
  intro place ix hix
  obtain ⟨spec, hspec, hmade⟩ := index_of_ofSpecs h hix
  exact ⟨spec, hspec, IndexSpec.made_of_index hmade⟩

theorem MadeBy.step {specs : List IndexSpec} {s : Session} (h : s.MadeBy specs) (op : Op) :
    (s.step op).1.MadeBy specs := by
  intro place ix' hix'
  rcases s.step_at op place with ⟨-, hsame⟩ | ⟨ix, indexOp, -, hix, hnext⟩
  · exact h place ix' (hsame ▸ hix')
  · obtain ⟨spec, hspec, hmade⟩ := h place ix hix
    obtain rfl := Option.some.inj (hnext.symm.trans hix')
    exact ⟨spec, hspec, hmade.perform indexOp⟩

/-- The entry of the handle was given out by an index of the session. -/
def Knows (s : Session) (e : Handle) : Prop :=
  ∃ ix, s.indices[e.owner]? = some ix ∧ e.id < ix.core.ledger.size

variable {specs : List IndexSpec} {s : Session}

/-- Entries are not forgotten. -/
theorem MadeBy.knows_step (h : s.MadeBy specs) (op : Op) {e : Handle} (he : s.Knows e) :
    (s.step op).1.Knows e := by
  obtain ⟨ix, hix, hid⟩ := he
  rcases s.step_at op e.owner with ⟨-, hsame⟩ | ⟨ix', indexOp, -, hix', hnext⟩
  · exact ⟨ix, hsame.trans hix, hid⟩
  · obtain rfl := Option.some.inj (hix.symm.trans hix')
    obtain ⟨spec, -, hmade⟩ := h _ _ hix
    have hsize := (hmade.coherent.becomes_perform indexOp).ledger.size_le
    exact ⟨_, hnext, Nat.lt_of_lt_of_le hid hsize⟩

theorem MadeBy.knows_reply (h : s.MadeBy specs) (op : Op) :
    ∀ e ∈ (s.step op).2.handles, (s.step op).1.Knows e := by
  intro e he
  rcases s.step_cases op with ⟨-, -, hnone⟩ | ⟨place, ix, indexOp, -, hix, hset, hanswer⟩
  · rw [hnone] at he
    exact absurd he List.not_mem_nil
  · obtain ⟨spec, -, hmade⟩ := h place ix hix
    rw [hanswer] at he
    obtain ⟨howner, hid⟩ := hmade.coherent.handles_perform indexOp e he
    rw [hmade.owner] at howner
    obtain ⟨hlt, -⟩ := List.getElem?_eq_some_iff.1 hix
    rw [Knows, hset, howner]
    exact ⟨_, List.getElem?_set_self hlt, hid⟩

theorem MadeBy.run (h : s.MadeBy specs) (ops : List Op) : (s.run ops).1.MadeBy specs := by
  induction ops generalizing s with
  | nil => exact h
  | cons op ops ih => exact ih (h.step op)

theorem MadeBy.knows_run (h : s.MadeBy specs) (ops : List Op) {e : Handle} (he : s.Knows e) :
    (s.run ops).1.Knows e := by
  induction ops generalizing s with
  | nil => exact he
  | cons op ops ih => exact ih (h.step op) (h.knows_step op he)

/-- Whatever was handed out in a run is known at its end. -/
theorem MadeBy.knows_replies (h : s.MadeBy specs) (ops : List Op) :
    ∀ reply ∈ (s.run ops).2, ∀ e ∈ reply.handles, (s.run ops).1.Knows e := by
  induction ops generalizing s with
  | nil => exact fun _ hr => nomatch hr
  | cons op ops ih =>
    intro reply hr e he
    rcases List.mem_cons.1 hr with rfl | hr
    · exact (h.step op).knows_run ops (h.knows_reply op e he)
    · exact ih (h.step op) reply hr e he

theorem ledger_of_index {place : Nat} {ix : AnyIndex} (h : s.indices[place]? = some ix) :
    s.ledger place = ix.core.ledger := by
  rw [ledger, h]

theorem entry_of_index {e : Handle} {ix : AnyIndex} (h : s.indices[e.owner]? = some ix) :
    s.entry? e = ix.core.ledger[e.id]? := by
  rw [← ledger_of_index h]
  rfl

/-- The entry of the handle is live exactly when it is stored. -/
def Tracks (s : Session) (h : Handle) : Prop :=
  ∃ ix e, s.indices[h.owner]? = some ix ∧ s.entry? h = some e ∧
    (e.live = true ↔ h.id ∈ ix.core.storedIds)

theorem MadeBy.tracks (h : s.MadeBy specs) {e : Handle} (he : s.Knows e) : s.Tracks e := by
  obtain ⟨ix, hix, hid⟩ := he
  obtain ⟨spec, -, hmade⟩ := h _ ix hix
  have hentry : s.entry? e = some ix.core.ledger[e.id] := by
    rw [entry_of_index hix]
    exact Array.getElem?_eq_getElem hid
  refine ⟨ix, ix.core.ledger[e.id], hix, hentry, ?_⟩
  rw [← hmade.coherent.core.coherent.any_live, Array.getElem?_eq_getElem hid, Option.any_some]

/-- However indices are used side by side, each of them stays well-formed under the
configuration that it was made with, no count is ever lowered below zero, and the entry of a
handle that was handed out is live exactly when it is stored. -/
theorem run_wellFormed (h : ofSpecs specs = .ok s) (ops : List Op) :
    (∀ (place : Nat) (ix : AnyIndex), (s.run ops).1.indices[place]? = some ix →
      ix.WellFormed ∧
      (∃ spec, specs[place]? = some spec ∧ spec.source.config = .ok ix.core.config) ∧
      ∀ op : IndexOp, (ix.perform op).state.core.stored + (op.turnover (ix.perform op).answer).gone =
        ix.core.stored + (op.turnover (ix.perform op).answer).inserted) ∧
    ∀ reply ∈ (s.run ops).2, ∀ e ∈ reply.handles, (s.run ops).1.Tracks e := by
  have hmade := madeBy_of_ofSpecs h
  have hrun := hmade.run ops
  refine ⟨fun place ix hix => ?_, fun reply hr e he => ?_⟩
  · obtain ⟨spec, hspec, hm⟩ := hrun place ix hix
    exact ⟨hm.coherent.wellFormed, ⟨spec, hspec, hm.config⟩, hm.coherent.stored_perform⟩
  · exact hrun.tracks (hmade.knows_replies ops reply hr e he)

/-- Two indices are offered each other's entries, wrong keys and entries long gone, and the
second one goes on without its shared side. -/
theorem run_wellFormed_foreign :
    let s := Solution.ofBindings [(⟨"x"⟩, .integer 1)]
    let source := ConfigSource.ofSettings [.vars [⟨"x"⟩]]
    let specs : List IndexSpec := [⟨false, source, none⟩, ⟨true, source, some (.empty .ordered)⟩]
    let ops : List Op := [.on 0 (.insert s), .on 1 (.insert s), .on 1 (.insert .empty),
      .on 1 (.mark ⟨0, 0⟩), .on 1 (.remove .crossProduct ⟨1, 0⟩), .on 1 (.consume .inner s),
      .on 1 (.insertNew s), .on 1 (.mark ⟨1, 0⟩), .on 1 .unshare, .on 1 .buckets]
    ∃ start, ofSpecs specs = .ok start ∧
      (∀ (place : Nat) (ix : AnyIndex), (start.run ops).1.indices[place]? = some ix →
        ix.WellFormed ∧
        (∃ spec, specs[place]? = some spec ∧ spec.source.config = .ok ix.core.config) ∧
        ∀ op : IndexOp,
          (ix.perform op).state.core.stored + (op.turnover (ix.perform op).answer).gone =
            ix.core.stored + (op.turnover (ix.perform op).answer).inserted) ∧
      ∀ reply ∈ (start.run ops).2, ∀ e ∈ reply.handles, (start.run ops).1.Tracks e := by
  intro s source specs ops
  have hmade : ∃ start, ofSpecs specs = .ok start := ⟨_, rfl⟩
  obtain ⟨start, h⟩ := hmade
  exact ⟨start, h, run_wellFormed h ops⟩

end Session

end HashJoin
