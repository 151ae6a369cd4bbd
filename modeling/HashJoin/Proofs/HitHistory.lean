import HashJoin.Proofs.Consuming
import HashJoin.Proofs.Scan
import HashJoin.Proofs.WellFormed

/-! The hits of an entry, as the history of a session tells them. To one entry an operation
is a match, or a clearing of its hits, or neither, and which of these it is depends on what
is asked for and what is stored, never on the hits themselves. When a session has run from
its start, the hits of an entry are its matches since it came in or was last cleared, and a
scan gives out the live entries that this puts into its class, each of them once. -/

namespace HashJoin

/-- What an operation can be to an entry. -/
inductive HitEvent where
  | matched
  | cleared
  deriving DecidableEq

namespace HitEvent

/-- The hits of an entry after an operation, by what it was to the entry. -/
def update : Option HitEvent → Nat → Nat
  | none, hits => hits
  | some matched, hits => hits + 1
  | some cleared, _ => 0

/-- The number of matches since the hits were last cleared. -/
def sinceCleared (events : List HitEvent) : Nat := (events.reverse.takeWhile (· = matched)).length

theorem sinceCleared_append (events : List HitEvent) (event : Option HitEvent) :
    sinceCleared (events ++ event.toList) = update event (sinceCleared events) := by
  cases event with
  | none => rw [Option.toList_none, List.append_nil, update]
  | some event =>
    rw [sinceCleared, Option.toList_some, List.reverse_concat]
    cases event with
    | matched => rfl
    | cleared => rfl

end HitEvent

namespace HitClass

/-- The class of the entries with so many hits. -/
def ofCount (hits : Nat) : HitClass := if hits = 0 then .unmatched else .matched

theorem includes_eq (hitClass : HitClass) (e : Entry) :
    hitClass.includes e = decide (ofCount e.hits = hitClass) := by
  by_cases h : e.hits = 0 <;> cases hitClass <;>
    simp [includes, Entry.isMatched, ofCount, h, Nat.pos_iff_ne_zero]

end HitClass

namespace Ledger

/-- The hits of an entry. One that has not come in has none. -/
def hitsAt (ledger : Ledger) (id : EntryId) : Nat := ledger[id]?.elim 0 Entry.hits

theorem hitsAt_push (ledger : Ledger) (s : Solution) (id : EntryId) :
    hitsAt (ledger.push { solution := s }) id = ledger.hitsAt id := by
  rw [hitsAt, hitsAt, Array.getElem?_push]
  split
  next h => rw [Array.getElem?_eq_none (Nat.le_of_eq h.symm)]; rfl
  next => rfl

theorem Changes.hitsAt {f : Entry → Entry} {ids : List EntryId} {before after : Ledger}
    (h : Changes f ids before after) (event : Option HitEvent)
    (hf : ∀ e, (f e).hits = HitEvent.update event e.hits) (id : EntryId) :
    after.hitsAt id = HitEvent.update (if id ∈ ids then event else none) (before.hitsAt id) := by
  rw [Ledger.hitsAt, Ledger.hitsAt, h.entry]
  split
  next hid =>
    obtain ⟨e, he, -⟩ := (Option.any_eq_true _ _).1 (h.live id hid)
    rw [he]
    exact hf e
  next => rfl

end Ledger

/-- A scan looks at the hits of an entry and at nothing else. -/
theorem HitClass.solutions_eq_filterMap (hitClass : HitClass) (ledger : Ledger)
    (ids : List EntryId) : hitClass.solutions ledger ids =
      (ids.filter fun id => ofCount (ledger.hitsAt id) = hitClass).filterMap fun id =>
        ledger[id]?.map Entry.solution := by
  rw [solutions, List.filterMap_filter]
  refine List.filterMap_congr fun id _ => ?_
  rw [Ledger.hitsAt]
  cases ledger[id]? with
  | none => exact (ite_self _).symm
  | some e =>
    rw [Option.filter_some, Option.elim_some, ← includes_eq]
    split <;> rfl

namespace Index

variable {ix : Index} {isShared : Bool}

/-! ### What is matched -/

/-- Whether a probe matches an entry, which must be a live one of this index and have the
key of the probe. -/
def accepts (ix : Index) (op : Operator) (probe : Solution) (e : Handle) : Bool :=
  ix.entry? e |>.any fun entry => entry.live && ix.config.meets op entry.solution probe

theorem Coherent.mem_matched (h : ix.Coherent) {op : Operator} {probe : Solution} {id : EntryId} :
    id ∈ ix.matched op probe ↔ ix.accepts op probe (ix.handle id) = true := by
  rw [matched, h.matching_probe, accepts, entry?_handle, Option.any_eq_true]
  constructor
  · intro hid
    rw [Log.map_fst_met] at hid
    obtain ⟨r, hr, rfl⟩ := List.mem_map.1 hid
    obtain ⟨hr, hmeets⟩ := List.mem_filter.1 hr
    exact ⟨r.entry, ledger_of_mem hr, hmeets⟩
  · rintro ⟨⟨s, n, live⟩, he, hmeets⟩
    obtain ⟨rfl, hmeets⟩ := Bool.and_eq_true_iff.1 hmeets
    have hr : (⟨id, s, n⟩ : Record) ∈ ix.log.records := Ledger.mem_records.2 he
    exact (mem_met_iff hr).2 hmeets

theorem Coherent.changes_join (h : ix.Coherent) (op : Operator) (probe : Solution) :
    ix.ledger.Changes Entry.hit (if op.countsHits then ix.matched op probe else [])
      (ix.join op probe).state.ledger := by
  rw [Index.join, Step.andThen_state, probe_state, joinBucket_state]
  change ix.ledger.Changes _ _
    (ix.markAll (if op.countsHits then ix.matched op probe else [])).state.ledger
  cases op.countsHits with
  | false => exact Ledger.changes_nil _ _
  | true =>
    have hlive : ∀ id ∈ ix.matched op probe, ix.ledger[id]?.any Entry.live = true := by
      intro id hid
      exact h.any_live.2 ((h.loses_consumeKeyed op probe).stored id hid)
    refine ⟨hlive, fun id => ?_⟩
    rw [if_pos rfl, markAll_of_live hlive]
    exact Ledger.getElem?_foldl_modify_of_nodup _ (h.nodup_matched op probe) _ id

theorem Coherent.mem_joined (h : ix.Coherent) {op : Operator} {probe : Solution} {id : EntryId} :
    id ∈ (if op.countsHits then ix.matched op probe else []) ↔
      op.countsHits = true ∧ ix.accepts op probe (ix.handle id) = true := by
  cases op.countsHits with
  | false => simp
  | true => simp [h.mem_matched]

theorem Coherent.changes_consume (h : ix.Coherent) (op : Operator) (probe : Solution) :
    ix.ledger.Changes (fun e => e.hit.retire) (ix.matched op probe)
      (ix.consumeKeyed op probe (ix.keying probe)).state.ledger :=
  have hloses := h.loses_consumeKeyed op probe
  ⟨fun id hid => h.any_live.2 (hloses.stored id hid), hloses.entry⟩

/-! ### Events -/

/-- What an operation is to an entry. Only a mark that is not refused and a probe that accepts
the entry are matches: a joining probe if the operator counts hits, a consuming one always. -/
def event? (ix : Index) (isShared : Bool) (e : Handle) : IndexOp → Option HitEvent
  | .mark h => if h = e ∧ (ix.mark h).answer = true then some .matched else none
  | .join op probe => if op.countsHits ∧ ix.accepts op probe e then some .matched else none
  | .consume op probe => if isShared ∧ ix.accepts op probe e then some .matched else none
  | .clearHits => if ix.isLive e then some .cleared else none
  | .insert _ | .insertAll _ | .insertNew _ | .keying _ | .lookup _ | .probe _ | .scan .. | .summary
    | .config | .unshare | .buckets | .remove .. | .removeBucket _ => none

theorem mark_answer (ix : Index) (e : Handle) : (ix.mark e).answer = ix.isLive e := by
  rw [mark]
  split
  next h => exact h.symm
  next h => exact (Bool.eq_false_iff.2 h).symm

/-- What is done to an index is nothing to the entries of another one. -/
theorem event?_foreign {e : Handle} (h : e.owner ≠ ix.owner) (op : IndexOp) :
    ix.event? isShared e op = none := by
  have hlive : ix.isLive e = false := Bool.eq_false_iff.2 fun hl => h ((ix.isLive_iff e).1 hl).1
  have haccepts : ∀ op probe, ix.accepts op probe e = false := by
    intro op probe
    rw [accepts, show ix.entry? e = none from if_neg h]
    rfl
  cases op with
  | mark e' =>
    refine if_neg ?_
    rintro ⟨rfl, hm⟩
    rw [mark_answer, hlive] at hm
    contradiction
  | join op probe | consume op probe => simp [event?, haccepts]
  | clearHits => rw [event?, hlive]; rfl
  | insert s | insertAll solutions | insertNew s | keying s | lookup k | probe s | scan c limit
    | summary | config | unshare | buckets | remove k e' | removeBucket k => rfl

variable {id : EntryId}

theorem mem_marked (ix : Index) (e : Handle) : id ∈ (if (ix.mark e).answer then [e.id] else []) ↔
    e = ix.handle id ∧ (ix.mark e).answer = true := by
  cases hm : (ix.mark e).answer with
  | false => simp
  | true =>
    have howner : e.owner = ix.owner := ((ix.isLive_iff e).1 (ix.mark_answer e ▸ hm)).1
    obtain ⟨owner, id'⟩ := e
    obtain rfl : owner = ix.owner := howner
    simp [handle, eq_comm]

theorem hitsAt_append {hits : Nat} (h : ix.ledger.hitsAt id = hits) (k : Key) (s : Solution) :
    (ix.append k s).ledger.hitsAt id = hits :=
  (Ledger.hitsAt_push ix.ledger s id).trans h

/-- An operation changes the hits of an entry by what it is to the entry. -/
theorem Coherent.hitsAt_perform (h : ix.Coherent) (id : EntryId) (op : IndexOp) :
    (ix.perform op).state.ledger.hitsAt id =
      HitEvent.update (ix.event? false (ix.handle id) op) (ix.ledger.hitsAt id) := by
  cases op with
  | insert s => exact insertKeyed_keeps (P := (·.ledger.hitsAt id = _)) hitsAt_append rfl s _
  | insertAll solutions =>
    exact foldl_addKeyed_keeps (P := (·.ledger.hitsAt id = _)) hitsAt_append rfl {} _
  | insertNew s => exact insertNewKeyed_keeps (P := (·.ledger.hitsAt id = _)) hitsAt_append rfl s _
  | mark e =>
    have hm := (ix.changes_mark e).hitsAt (some .matched) (fun _ => rfl) id
    rwa [if_congr (ix.mem_marked e) rfl rfl] at hm
  | clearHits =>
    have hc := h.changes_clearHits.hitsAt (some .cleared) (fun _ => rfl) id
    rwa [if_congr h.any_live.symm rfl rfl, ← isLive_handle] at hc
  | join op probe =>
    have hj := (h.changes_join op probe).hitsAt (some .matched) (fun _ => rfl) id
    rwa [if_congr h.mem_joined rfl rfl] at hj
  | probe s =>
    change (ix.probe s).state.ledger.hitsAt id = _
    rw [probe_state]
    rfl
  | keying s | lookup k | scan c limit | summary | config | unshare | buckets | remove k e
    | removeBucket k | consume op probe => rfl

end Index

namespace SharedIndex

variable {ix : SharedIndex}

theorem Coherent.hitsAt_perform (h : ix.Coherent) (id : EntryId) (op : IndexOp) :
    (ix.perform op).state.core.ledger.hitsAt id =
      HitEvent.update (ix.core.event? true (ix.core.handle id) op) (ix.core.ledger.hitsAt id) := by
  have hc := h.core.coherent
  rw [h.eq_ofIndex]
  generalize ix.core = core at hc
  have hboth := hc.hitsAt_perform id op
  cases op with
  | remove k e =>
    have hr := (hc.changes_remove k e).hitsAt none (fun _ => rfl) id
    rwa [ite_self] at hr
  | removeBucket k =>
    have hr := (hc.changes_removeBucket k).hitsAt none (fun _ => rfl) id
    rwa [ite_self] at hr
  | consume op probe =>
    have ht := (hc.changes_consume op probe).hitsAt (some .matched) (fun _ => rfl) id
    have hm : id ∈ core.matched op probe ↔
        true = true ∧ core.accepts op probe (core.handle id) = true :=
      hc.mem_matched.trans (and_iff_right rfl).symm
    rwa [if_congr hm rfl rfl] at ht
  | insert s | insertAll solutions | insertNew s | keying s | lookup k | probe s | mark e
    | clearHits | scan c limit | summary | config | join op probe | unshare | buckets => exact hboth

end SharedIndex

namespace AnyIndex

variable {ix : AnyIndex}

def event? (ix : AnyIndex) (e : Handle) (op : IndexOp) : Option HitEvent :=
  ix.core.event? ix.isShared e op

theorem Coherent.hitsAt_perform (h : ix.Coherent) (id : EntryId) (op : IndexOp) :
    (ix.perform op).state.core.ledger.hitsAt id =
      HitEvent.update (ix.event? (ix.core.handle id) op) (ix.core.ledger.hitsAt id) := by
  cases ix with
  | base ix => exact Index.Coherent.hitsAt_perform (Index.Follows.coherent h) id op
  | shared ix =>
    by_cases hop : op = .unshare
    · subst hop
      rfl
    · rw [perform_shared ix hop]
      exact SharedIndex.Coherent.hitsAt_perform h id op

/-- A scan gives out the stored entries of its class. -/
theorem scan_answer_eq (ix : AnyIndex) (hitClass : HitClass) :
    (ix.perform (.scan hitClass none)).answer =
      .solutions (hitClass.solutions ix.core.ledger ix.core.storedIds) := by
  cases ix with
  | base ix =>
    refine congrArg Reply.solutions ?_
    rw [Index.scan_answer, Option.getD_none, List.take_length]
    rfl
  | shared ix => rfl

end AnyIndex

namespace Session

variable {specs : List IndexSpec} {s : Session}

/-- What an operation is to an entry. -/
def event? (s : Session) (e : Handle) : Op → Option HitEvent
  | .on place op => s.indices[place]?.bind fun ix => ix.event? e op
  | .openScan .. | .next _ | .rest _ | .openLazy .. | .nextLazy _ => none

/-- What the operations are to an entry, from the first to the last. -/
def hitHistory (s : Session) (e : Handle) : List Op → List HitEvent
  | [] => []
  | op :: ops => (s.event? e op).toList ++ (s.step op).1.hitHistory e ops

theorem MadeBy.event?_foreign (h : s.MadeBy specs) {e : Handle} {op : Op}
    (hop : ∀ indexOp, op = .on e.owner indexOp → s.indices[e.owner]? = none) :
    s.event? e op = none := by
  cases op with
  | openScan place c | next c | rest c | openLazy place c | nextLazy c => rfl
  | on place indexOp =>
    rw [event?]
    cases hix : s.indices[place]? with
    | none => rfl
    | some ix =>
      obtain ⟨spec, -, hmade⟩ := h place ix hix
      refine Index.event?_foreign (fun ho => ?_) indexOp
      obtain rfl : e.owner = place := ho.trans hmade.owner
      rw [hop indexOp rfl] at hix
      contradiction

theorem MadeBy.hitsAt_step (h : s.MadeBy specs) (e : Handle) (op : Op) :
    ((s.step op).1.ledger e.owner).hitsAt e.id =
      HitEvent.update (s.event? e op) ((s.ledger e.owner).hitsAt e.id) := by
  rcases s.step_at op e.owner with ⟨hop, hsame⟩ | ⟨ix, indexOp, rfl, hix, hnext⟩
  · rw [h.event?_foreign hop, ledger, hsame]
    rfl
  · obtain ⟨spec, -, hmade⟩ := h _ ix hix
    have hevent : s.event? e (.on e.owner indexOp) = ix.event? e indexOp := by
      rw [event?, hix, Option.bind_some]
    have hhandle : ix.core.handle e.id = e := by rw [Index.handle, hmade.owner]
    rw [ledger_of_index hnext, ledger_of_index hix, hevent, hmade.coherent.hitsAt_perform, hhandle]

/-- The hits at the end of a run go by what had happened before and what happened in it. -/
theorem MadeBy.hitsAt_run (h : s.MadeBy specs) {e : Handle} {past : List HitEvent}
    (hp : (s.ledger e.owner).hitsAt e.id = HitEvent.sinceCleared past) (ops : List Op) :
    ((s.run ops).1.ledger e.owner).hitsAt e.id =
      HitEvent.sinceCleared (past ++ s.hitHistory e ops) := by
  induction ops generalizing s past with
  | nil => rw [hitHistory, List.append_nil]; exact hp
  | cons op ops ih =>
    have hstep := h.hitsAt_step e op
    rw [hp, ← HitEvent.sinceCleared_append] at hstep
    rw [hitHistory, ← List.append_assoc]
    exact ih (h.step op) hstep

/-- In a new session no entry has come in. -/
theorem ledger_of_ofSpecs (h : ofSpecs specs = .ok s) (place : Nat) : s.ledger place = #[] := by
  cases hix : s.indices[place]? with
  | none => rw [ledger, hix]
  | some ix =>
    obtain ⟨spec, -, hmade⟩ := index_of_ofSpecs h hix
    obtain ⟨config, -, -, hf⟩ := IndexSpec.follows_of_index hmade
    rw [ledger_of_index hix]
    exact Array.eq_empty_of_size_eq_zero (congrArg Log.next hf.core.log_eq)

/-- After the start of a session the hits go by what happened in it. -/
theorem hitsAt_run_of_ofSpecs (h : ofSpecs specs = .ok s) (ops : List Op) (e : Handle) :
    ((s.run ops).1.ledger e.owner).hitsAt e.id = HitEvent.sinceCleared (s.hitHistory e ops) := by
  have hstart : (s.ledger e.owner).hitsAt e.id = HitEvent.sinceCleared [] := by
    rw [ledger_of_ofSpecs h]
    rfl
  exact (madeBy_of_ofSpecs h).hitsAt_run hstart ops

/-- The hits of every entry that ever came in are its matches since then, or since it was last
cleared; and a scan of an index gives out just the live entries that this puts into its class,
each of them once. -/
theorem run_counts_hits (h : ofSpecs specs = .ok s) (ops : List Op) :
    let last := (s.run ops).1
    (∀ (e : Handle) (entry : Entry), last.entry? e = some entry →
      entry.hits = HitEvent.sinceCleared (s.hitHistory e ops)) ∧
    ∀ (place : Nat) (hitClass : HitClass), place < last.indices.length →
      let read (id : EntryId) := last.entry? ⟨place, id⟩
      ∃ ids : List EntryId, ids.Nodup ∧
        (∀ id, id ∈ ids ↔ (read id).any Entry.live = true ∧
          HitClass.ofCount (HitEvent.sinceCleared (s.hitHistory ⟨place, id⟩ ops)) = hitClass) ∧
        (last.step (.on place (.scan hitClass none))).2 =
          .solutions (ids.filterMap fun id => (read id).map Entry.solution) := by
  intro last
  have hhits : ∀ e : Handle, (last.ledger e.owner).hitsAt e.id =
      HitEvent.sinceCleared (s.hitHistory e ops) := hitsAt_run_of_ofSpecs h ops
  refine ⟨fun e entry he => ?_, fun place hitClass hplace => ?_⟩
  · rw [← hhits, Ledger.hitsAt, show (last.ledger e.owner)[e.id]? = some entry from he,
      Option.elim_some]
  · intro read
    obtain ⟨ix, hix⟩ : ∃ ix, last.indices[place]? = some ix :=
      ⟨_, List.getElem?_eq_getElem hplace⟩
    obtain ⟨spec, -, hmade⟩ := (madeBy_of_ofSpecs h).run ops place ix hix
    have hc := hmade.coherent.core.coherent
    have hledger := ledger_of_index hix
    have hread : ∀ id, read id = ix.core.ledger[id]? :=
      fun id => entry_of_index (e := ⟨place, id⟩) hix
    refine ⟨ix.core.storedIds.filter fun id =>
        HitClass.ofCount (ix.core.ledger.hitsAt id) = hitClass,
      hc.wellFormed.nodup.filter _, fun id => ?_, ?_⟩
    · rw [List.mem_filter, decide_eq_true_iff, ← hc.any_live, hread, ← hhits, hledger]
    · simp only [hread]
      rw [← HitClass.solutions_eq_filterMap, ← ix.scan_answer_eq]
      simp only [step, hix]

/-- An entry is matched, cleared, and matched again by the probe that consumes it, and after that
it is out of reach. Marks with the handles of another index and probes that do not count are
nothing to it. -/
theorem run_counts_hits_consumed :
    let s := Solution.ofBindings [(⟨"x"⟩, .integer 1)]
    let t := Solution.ofBindings [(⟨"x"⟩, .integer 2)]
    let source := ConfigSource.ofSettings [.vars [⟨"x"⟩]]
    let specs : List IndexSpec :=
      [⟨false, source, some (.empty .arrival)⟩, ⟨true, source, some (.empty .ordered)⟩]
    let ops : List Op := [.on 0 (.insert s), .on 1 (.insertAll [s, t]), .on 1 (.mark ⟨0, 0⟩),
      .on 1 (.join .semi s), .on 1 (.join .inner s), .on 1 .clearHits, .on 1 (.mark ⟨1, 1⟩),
      .on 1 (.consume .inner s), .on 1 (.mark ⟨1, 0⟩), .on 1 .clearHits, .on 0 (.mark ⟨0, 0⟩)]
    ∃ start, ofSpecs specs = .ok start ∧
      start.hitHistory ⟨1, 0⟩ ops = [.matched, .cleared, .matched] ∧
      let last := (start.run ops).1
      (∀ (e : Handle) (entry : Entry), last.entry? e = some entry →
        entry.hits = HitEvent.sinceCleared (start.hitHistory e ops)) ∧
      ∀ (place : Nat) (hitClass : HitClass), place < last.indices.length →
        let read (id : EntryId) := last.entry? ⟨place, id⟩
        ∃ ids : List EntryId, ids.Nodup ∧
          (∀ id, id ∈ ids ↔ (read id).any Entry.live = true ∧
            HitClass.ofCount (HitEvent.sinceCleared (start.hitHistory ⟨place, id⟩ ops)) =
              hitClass) ∧
          (last.step (.on place (.scan hitClass none))).2 =
            .solutions (ids.filterMap fun id => (read id).map Entry.solution) := by
  intro s t source specs ops
  have hmade : ∃ start, ofSpecs specs = .ok start ∧
      start.hitHistory ⟨1, 0⟩ ops = [.matched, .cleared, .matched] := by
    subst ops specs source t s
    exact ⟨_, rfl, by decide +kernel⟩
  obtain ⟨start, h, htold⟩ := hmade
  exact ⟨start, h, htold, run_counts_hits h ops⟩

end Session

end HashJoin
