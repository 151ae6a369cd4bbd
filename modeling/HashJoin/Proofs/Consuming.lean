import HashJoin.Proofs.History
import HashJoin.Proofs.Log.Turnover

/-! Consuming probes. A probe that consumes answers what it would answer if it left its
matches where they are, and then exactly these are gone: the buckets keep their order and
their other entries, and the ledger keeps every other entry as it was. A removed entry is
never live again, so over a whole run no entry is matched by two such probes, and what
came in is stored, or it was consumed, removed or taken with its bucket. -/

namespace HashJoin

namespace Bucket

def without (bucket : Bucket) (gone : List EntryId) : Bucket := bucket.filter (· ∉ gone)

theorem without_append (bucket : Bucket) (gone gone' : List EntryId) :
    without bucket (gone ++ gone') = without (without bucket gone) gone' := by
  rw [without, without, without, List.filter_filter]
  refine List.filter_congr fun id _ => ?_
  rw [← Bool.decide_and, decide_eq_decide, List.mem_append, not_or, and_comm]

theorem without_nil (gone : List EntryId) : without [] gone = [] := rfl

theorem without_eq_self {bucket : Bucket} {gone : List EntryId} (h : ∀ id ∈ gone, id ∉ bucket) :
    without bucket gone = bucket :=
  List.filter_eq_self.2 fun id hid => decide_eq_true fun hg => h id hg hid

end Bucket

namespace Buckets

/-- The buckets without some of their entries. A bucket that is left empty goes too. -/
def without (pairs : List (Key × Bucket)) (gone : List EntryId) : List (Key × Bucket) :=
  pairs.filterMap fun p =>
    if p.2.without gone = [] then none else some (p.1, p.2.without gone)

theorem without_append (pairs : List (Key × Bucket)) (gone gone' : List EntryId) :
    without pairs (gone ++ gone') = without (without pairs gone) gone' := by
  rw [without, without, without, List.filterMap_filterMap]
  refine List.filterMap_congr fun p _ => ?_
  rw [Bucket.without_append]
  by_cases h : p.2.without gone = []
  · rw [if_pos h, h, Bucket.without_nil, if_pos rfl]
    rfl
  · rw [if_neg h]
    rfl

/-- The entries that are left stand in the order in which they stood. -/
theorem flatMap_without (pairs : List (Key × Bucket)) (gone : List EntryId) :
    (without pairs gone).flatMap Prod.snd = (pairs.flatMap Prod.snd).filter (· ∉ gone) := by
  induction pairs with
  | nil => rfl
  | cons p pairs ih =>
    rw [List.flatMap_cons, List.filter_append, ← ih, without, List.filterMap_cons]
    by_cases h : p.2.without gone = []
    · rw [if_pos h]
      rw [Bucket.without] at h
      rw [h]
      rfl
    · rw [if_neg h]
      rfl

end Buckets

namespace Index

variable {ix : Index} {k : Key} {ids : List EntryId}

/-! ### Marking and removing what is there -/

/-- Marking live entries changes the ledger and nothing else, and no mark is refused. -/
theorem markAll_of_live (h : ∀ id ∈ ids, ix.ledger[id]?.any Entry.live = true) :
    ix.markAll ids = ⟨ids.map fun _ => true,
      { ix with ledger := ids.foldl (fun l id => l.modify id Entry.hit) ix.ledger },
      { hits := ids.length }⟩ := by
  induction ids generalizing ix with
  | nil => rfl
  | cons id ids ih =>
    have hm : ix.mark (ix.handle id) =
        ⟨true, { ix with ledger := ix.ledger.modify id Entry.hit }, { hits := 1 }⟩ := by
      rw [mark, isLive_handle, if_pos (h id List.mem_cons_self)]
      rfl
    have hlive : ∀ id' ∈ ids,
        (ix.ledger.modify id Entry.hit)[id']?.any Entry.live = true := by
      intro id' hid'
      have hlive := h id' (List.mem_cons_of_mem _ hid')
      rw [Array.getElem?_modify]
      split
      · rw [Option.any_map]
        exact hlive
      · exact hlive
    have hone : ({ hits := 1 } + { hits := ids.length } : Counters) = { hits := ids.length + 1 } := by
      ext <;> simp [Nat.add_comm]
    have hrest : markAll { ix with ledger := ix.ledger.modify id Entry.hit } ids = _ := ih hlive
    rw [markAll] at hrest ⊢
    rw [Step.each_cons, hm, Step.andThen, hrest, Step.map, hone]
    rfl

/-- Removing an entry from the bucket in which it lies. -/
theorem remove_of_mem {id : EntryId} (h : id ∈ (ix.buckets.get? k).getD []) :
    (ix.remove k (ix.handle id)).state.ledger = ix.ledger.modify id Entry.retire ∧
      ((ix.remove k (ix.handle id)).state.buckets.get? k).getD [] =
        ((ix.buckets.get? k).getD []).erase id := by
  rw [remove]
  cases hb : ix.buckets.get? k with
  | none =>
    rw [hb] at h
    exact absurd h List.not_mem_nil
  | some bucket =>
    rw [hb] at h
    have ho : (ix.handle id).owner = ix.owner ∧ (ix.handle id).id ∈ bucket := ⟨rfl, h⟩
    simp only [if_pos ho]
    refine ⟨rfl, ?_⟩
    change ((if (bucket.erase id).isEmpty = true then ix.buckets.erase k
      else ix.buckets.modify k (·.erase id)).get? k).getD [] = bucket.erase id
    split
    next he => rw [Buckets.get?_erase, if_pos rfl, List.isEmpty_iff.1 he]; rfl
    next => rw [Buckets.get?_modify, if_pos rfl, hb]; rfl

/-- In the map the entry goes, and with the last entry the bucket. -/
theorem Coherent.toList_remove (h : ix.Coherent) {id : EntryId}
    (hid : id ∈ (ix.buckets.get? k).getD []) :
    (ix.remove k (ix.handle id)).state.buckets.toList =
      Buckets.without ix.buckets.toList [id] := by
  rw [h.getD] at hid
  have hb : ix.buckets.get? k = some (ix.log.chainIds k) := by
    rw [h.get?, if_neg (List.ne_nil_of_mem hid)]
  have hown : ∀ p ∈ ix.buckets.toList, p.1 = k →
      p.2.without [id] = (ix.log.chainIds k).erase id := by
    rintro ⟨k', bucket⟩ hp rfl
    obtain rfl := (h.mem_toList_iff.1 hp).1
    exact (ix.erase_chainIds k' id).symm
  -- the entry lies in no other bucket
  have hother : ∀ p ∈ ix.buckets.toList, p.1 ≠ k → p.2.without [id] = p.2 ∧ p.2 ≠ [] := by
    rintro ⟨k', bucket⟩ hp hk'
    obtain ⟨rfl, hnil⟩ := h.mem_toList_iff.1 hp
    refine ⟨Bucket.without_eq_self fun id' hid' hm => hk' ?_, hnil⟩
    exact chainIds_unique hm (List.mem_singleton.1 hid' ▸ hid)
  have ho : (ix.handle id).owner = ix.owner ∧ (ix.handle id).id ∈ ix.log.chainIds k := ⟨rfl, hid⟩
  rw [remove, hb]
  simp only [if_pos ho]
  change (if ((ix.log.chainIds k).erase id).isEmpty = true then ix.buckets.erase k
    else ix.buckets.modify k (·.erase id)).toList = _
  rw [Buckets.without]
  split
  next he =>
    rw [Buckets.toList_erase, ← List.filterMap_eq_filter]
    refine List.filterMap_congr fun p hp => ?_
    by_cases e : p.1 = k
    · rw [hown p hp e, List.isEmpty_iff.1 he, if_pos rfl]
      exact if_neg (by simp [e])
    · obtain ⟨hsame, hne⟩ := hother p hp e
      rw [hsame, if_neg hne]
      exact if_pos (by simp [e])
  next he =>
    rw [Buckets.toList_modify, ← List.filterMap_eq_map']
    refine List.filterMap_congr fun p hp => ?_
    by_cases e : p.1 = k
    · obtain ⟨k', bucket⟩ := p
      obtain rfl : k' = k := e
      have hbucket := (h.mem_toList_iff.1 hp).1
      rw [hown _ hp rfl, if_neg fun hn => he (List.isEmpty_iff.2 hn), if_pos rfl, hbucket]
    · obtain ⟨hsame, hne⟩ := hother p hp e
      rw [hsame, if_neg hne, if_neg e]

theorem Coherent.without_nil (h : ix.Coherent) :
    Buckets.without ix.buckets.toList [] = ix.buckets.toList := by
  refine (List.filterMap_congr fun p hp => ?_).trans List.filterMap_some
  rw [Bucket.without_eq_self fun id hid => absurd hid List.not_mem_nil,
    if_neg (h.mem_toList_iff.1 hp).2]

/-- Different entries of one bucket are removed one after the other. -/
theorem Coherent.removeAll_of_mem (h : ix.Coherent) (hn : ids.Nodup)
    (hids : ∀ id ∈ ids, id ∈ (ix.buckets.get? k).getD []) :
    (ix.removeAll k ids).state.ledger =
        ids.foldl (fun l id => l.modify id Entry.retire) ix.ledger ∧
      (ix.removeAll k ids).state.buckets.toList = Buckets.without ix.buckets.toList ids := by
  induction ids generalizing ix with
  | nil => exact ⟨rfl, h.without_nil.symm⟩
  | cons id ids ih =>
    obtain ⟨hid, hn⟩ := List.nodup_cons.1 hn
    have hmem := hids id List.mem_cons_self
    obtain ⟨hledger, hbucket⟩ := remove_of_mem hmem
    have hrest : ∀ id' ∈ ids, id' ∈ ((ix.remove k (ix.handle id)).state.buckets.get? k).getD [] := by
      intro id' hid'
      have hne : id' ≠ id := fun e => hid (e ▸ hid')
      rw [hbucket]
      exact (List.mem_erase_of_ne hne).2 (hids id' (List.mem_cons_of_mem _ hid'))
    obtain ⟨hledgers, hlists⟩ := ih (h.follows.remove k (ix.handle id)).1.coherent hn hrest
    rw [hledger] at hledgers
    rw [h.toList_remove hmem, ← Buckets.without_append] at hlists
    exact ⟨hledgers, hlists⟩

/-! ### Consuming -/

/-- The entries that an operator matches with a probe. -/
def matched (ix : Index) (op : Operator) (probe : Solution) : List EntryId :=
  (ix.matching op probe ((ix.probe probe).answer.getD [])).map Prod.fst

/-- From `before` to `after` the entries of `gone` have been matched once more and removed,
and nothing else has happened. -/
structure Loses (before after : Index) (gone : List EntryId) : Prop where
  stored : ∀ id ∈ gone, id ∈ before.storedIds
  buckets : after.buckets.toList = Buckets.without before.buckets.toList gone
  entry : ∀ id, after.ledger[id]? =
    if id ∈ gone then before.ledger[id]?.map fun e => e.hit.retire else before.ledger[id]?

theorem Loses.storedIds {before after : Index} {gone : List EntryId} (h : before.Loses after gone) :
    after.storedIds = before.storedIds.filter (· ∉ gone) := by
  rw [Index.storedIds, h.buckets, Buckets.flatMap_without]
  rfl

theorem mem_of_mem_matching {op : Operator} {probe : Solution} {bucket : Bucket} {id : EntryId}
    (h : id ∈ (ix.matching op probe bucket).map Prod.fst) : id ∈ bucket := by
  obtain ⟨p, hp, rfl⟩ := List.mem_map.1 h
  obtain ⟨id', hid', hm⟩ := List.mem_filterMap.1 hp
  obtain ⟨s, -, rfl⟩ := Option.map_eq_some_iff.1 hm
  exact hid'

theorem Coherent.nodup_matched (h : ix.Coherent) (op : Operator) (probe : Solution) :
    (ix.matched op probe).Nodup := by
  rw [matched, h.matching_probe]
  exact ix.nodup_met op probe

/-- Entries of one bucket that are marked and then removed are lost. -/
theorem Coherent.loses_removeAll (h : ix.Coherent) (hn : ids.Nodup)
    (hids : ∀ id ∈ ids, id ∈ (ix.buckets.get? k).getD []) :
    ix.Loses ((ix.markAll ids).state.removeAll k ids).state ids := by
  have hstored : ∀ id ∈ ids, id ∈ ix.storedIds := by
    intro id hid
    have hmem := hids id hid
    cases hb : ix.buckets.get? k with
    | none =>
      rw [hb] at hmem
      exact absurd hmem List.not_mem_nil
    | some bucket =>
      rw [hb] at hmem
      exact mem_storedIds hb hmem
  have hmark := congrArg Step.state (ix.markAll_of_live fun id hid => h.any_live.2 (hstored id hid))
  obtain ⟨hledger, hlists⟩ := (h.markAll ids).removeAll_of_mem hn (by rwa [hmark])
  rw [hmark] at hledger hlists
  refine ⟨hstored, hmark ▸ hlists, fun id => ?_⟩
  rw [hmark, hledger, Ledger.getElem?_foldl_modify_of_nodup _ hn,
    Ledger.getElem?_foldl_modify_of_nodup _ hn]
  split
  · rw [Option.map_map]
    rfl
  · rfl

/-- A consuming probe takes out what it matches, and nothing else. -/
theorem Coherent.loses_consumeKeyed (h : ix.Coherent) (op : Operator) (probe : Solution) :
    ix.Loses (ix.consumeKeyed op probe (ix.keying probe)).state (ix.matched op probe) := by
  have hn := h.nodup_matched op probe
  rw [matched, Index.probe] at hn ⊢
  cases hk : ix.keying probe with
  | missing v => exact ⟨fun _ hid => absurd hid List.not_mem_nil, h.without_nil.symm, fun _ => rfl⟩
  | key k =>
    rw [hk] at hn
    change ix.Loses (ix.consumeBucket op probe k (ix.buckets.get? k)).state
      ((ix.matching op probe ((ix.buckets.get? k).getD [])).map Prod.fst)
    rw [consumeBucket_state]
    exact h.loses_removeAll hn fun _ => mem_of_mem_matching

end Index

namespace SharedIndex

variable {ix : SharedIndex} {op : IndexOp}

/-- The entries that an operation consumes. -/
def consumed (ix : SharedIndex) : IndexOp → List EntryId
  | .consume op probe => ix.core.matched op probe
  | _ => []

/-- The entries that the operations consume, one after the other. -/
def consumedIn (ix : SharedIndex) : List IndexOp → List EntryId
  | [] => []
  | op :: ops => ix.consumed op ++ (ix.perform op).state.consumedIn ops

theorem consumed_eq_nil (h : ∀ operator probe, op ≠ .consume operator probe) :
    ix.consumed op = [] := by
  cases op
  case consume operator probe => exact absurd rfl (h operator probe)
  all_goals rfl

theorem Coherent.consume_answer (h : ix.Coherent) (op : Operator) (probe : Solution) :
    (ix.perform (.consume op probe)).answer = (ix.perform (.join op probe)).answer := by
  have hc : IndexOp.consume op probe ≠ .unshare := nofun
  have hj : IndexOp.join op probe ≠ .unshare := nofun
  exact (Follows.perform h hc).2.trans (Follows.perform h hj).2.symm

theorem Coherent.consume_loses (h : ix.Coherent) (op : Operator) (probe : Solution) :
    ix.core.Loses (ix.perform (.consume op probe)).state.core (ix.core.matched op probe) := by
  have hc := h.core.coherent
  rw [h.eq_ofIndex]
  exact hc.loses_consumeKeyed op probe

/-! ### Runs -/

theorem Coherent.nodup_consumed (h : ix.Coherent) (op : IndexOp) : (ix.consumed op).Nodup := by
  cases op
  case consume operator probe => exact h.core.coherent.nodup_matched operator probe
  all_goals exact List.nodup_nil

/-- What is consumed is live before and not after. -/
theorem Coherent.live_of_mem_consumed (h : ix.Coherent) {id : EntryId} (hid : id ∈ ix.consumed op) :
    ix.core.ledger[id]?.any Entry.live = true ∧
      (ix.perform op).state.core.ledger[id]?.any Entry.live = false := by
  cases op
  case consume operator probe =>
    have hl := h.consume_loses operator probe
    refine ⟨h.core.coherent.any_live.2 (hl.stored id hid), ?_⟩
    have hm : id ∈ ix.core.matched operator probe := hid
    rw [hl.entry, if_pos hm, Option.any_map]
    cases ix.core.ledger[id]? <;> rfl
  all_goals exact absurd hid List.not_mem_nil

/-- An entry that will be consumed is live until then. -/
theorem Coherent.live_of_mem_consumedIn (h : ix.Coherent) {ops : List IndexOp} {id : EntryId}
    (hid : id ∈ ix.consumedIn ops) (hlt : id < ix.core.ledger.size) :
    ix.core.ledger[id]?.any Entry.live = true := by
  induction ops generalizing ix with
  | nil => exact absurd hid List.not_mem_nil
  | cons op ops ih =>
    rcases List.mem_append.1 hid with hid | hid
    · exact (h.live_of_mem_consumed hid).1
    · have hledger := (h.becomes_perform op).ledger
      have hlater := ih (h.perform op) hid (Nat.lt_of_lt_of_le hlt hledger.size_le)
      exact hledger.live_of_live hlt hlater

/-- No entry is consumed twice. -/
theorem Coherent.nodup_consumedIn (h : ix.Coherent) (ops : List IndexOp) :
    (ix.consumedIn ops).Nodup := by
  induction ops generalizing ix with
  | nil => exact List.nodup_nil
  | cons op ops ih =>
    refine List.nodup_append'.2 ⟨h.nodup_consumed op, ih (h.perform op), fun id hid hid' => ?_⟩
    obtain ⟨hlive, hdead⟩ := h.live_of_mem_consumed hid
    have hlt : id < ix.core.ledger.size := by
      obtain ⟨e, he, -⟩ := (Option.any_eq_true _ _).1 hlive
      exact (Array.getElem?_eq_some_iff.1 he).1
    have hsize := (h.becomes_perform op).ledger.size_le
    rw [(h.perform op).live_of_mem_consumedIn hid' (Nat.lt_of_lt_of_le hlt hsize)] at hdead
    contradiction

/-- The replies to consuming probes tell how many entries they consumed. -/
theorem Coherent.consumed_turnover (h : ix.Coherent) (op : IndexOp) :
    (op.turnover (ix.perform op).answer).consumed = (ix.consumed op).length := by
  by_cases hop : ∃ operator probe, op = .consume operator probe
  · obtain ⟨operator, probe, rfl⟩ := hop
    have hc := h.core.coherent
    have hne : IndexOp.consume operator probe ≠ .unshare := nofun
    have hanswer := (Follows.perform h hne).2
    rw [hanswer, if_pos rfl, ← Log.ofFound_met]
    change (ix.core.log.met operator probe).length = (ix.core.matched operator probe).length
    rw [Index.matched, hc.matching_probe, List.length_map]
  · have hne : ∀ operator probe, op ≠ .consume operator probe :=
      fun operator probe e => hop ⟨operator, probe, e⟩
    rw [IndexOp.consumed_turnover_of_ne hne, consumed_eq_nil hne]
    rfl

theorem Coherent.consumed_turnovers (h : ix.Coherent) (ops : List IndexOp) :
    (IndexOp.turnovers ops (ix.run ops).answer).consumed = (ix.consumedIn ops).length := by
  induction ops generalizing ix with
  | nil => rfl
  | cons op ops ih =>
    rw [run_cons_answer, IndexOp.turnovers_cons, Turnover.consumed_add, h.consumed_turnover,
      ih (h.perform op), consumedIn, List.length_append]

theorem Coherent.turns_perform (h : ix.Coherent) (op : IndexOp) :
    ix.core.log.Turns (ix.perform op).state.core.log (op.turnover (ix.perform op).answer) := by
  by_cases hop : op = .unshare
  · subst hop
    exact .refl _
  · obtain ⟨hs, ha⟩ := Follows.perform h hop
    rw [hs.core.log_eq]
    exact Log.turns_step ix.core.ledger.nodup_ids ha

theorem Coherent.turns_run (h : ix.Coherent) (ops : List IndexOp) :
    ix.core.log.Turns (ix.run ops).state.core.log
      (IndexOp.turnovers ops (ix.run ops).answer) := by
  induction ops generalizing ix with
  | nil => exact .refl _
  | cons op ops ih =>
    rw [run_cons_answer, run_cons_state, IndexOp.turnovers_cons]
    exact (h.turns_perform op).trans (ih (h.perform op))

/-- Whenever a consuming probe comes in a run, it answers as a join does and takes out just
its matches; no entry is matched by two of them, and every entry that came in is stored or
has been consumed, removed or taken. -/
theorem run_consumes {spec : IndexSpec} {owner : Nat} (h : spec.index owner = .ok (.shared ix))
    (ops : List IndexOp) :
    (∀ (op : Operator) (probe : Solution),
      ((ix.run ops).state.perform (.consume op probe)).answer =
          ((ix.run ops).state.perform (.join op probe)).answer ∧
        (ix.run ops).state.core.Loses ((ix.run ops).state.perform (.consume op probe)).state.core
          ((ix.run ops).state.core.matched op probe)) ∧
      (ix.consumedIn ops).Nodup ∧
      let t := IndexOp.turnovers ops (ix.run ops).answer
      t.consumed = (ix.consumedIn ops).length ∧
        t.inserted = (ix.run ops).state.core.ledger.size ∧
        t.inserted = (ix.run ops).state.core.stored + t.consumed + t.removed + t.taken := by
  obtain ⟨hc, hlog⟩ := coherent_of_index h
  have hrun := hc.run ops
  have hturns := hc.turns_run ops
  have hnext := hturns.next
  have hlength := hturns.length
  rw [hlog] at hnext hlength
  rw [Index.log_next, Nat.zero_add] at hnext
  rw [← hrun.core.coherent.stored, List.length_nil, Nat.zero_add, Turnover.gone] at hlength
  refine ⟨fun op probe => ⟨hrun.consume_answer op probe, hrun.consume_loses op probe⟩,
    hc.nodup_consumedIn ops, hc.consumed_turnovers ops, hnext.symm, ?_⟩
  omega

/-- An entry is consumed, comes back under a new number, is removed, and a third one is
consumed beside an entry that stays, on a map that lists its buckets by arrival. -/
theorem run_consumes_arrival :
    let s := Solution.ofBindings [(⟨"x"⟩, .integer 1)]
    let t := Solution.ofBindings [(⟨"x"⟩, .integer 2)]
    let spec : IndexSpec := ⟨true, .ofSettings [.vars [⟨"x"⟩]], some (.empty .arrival)⟩
    let ops : List IndexOp := [.insertAll [s, t, .empty], .consume .inner s, .insertNew s,
      .remove (.ofSlots [some (.integer 1)]) ⟨0, 2⟩, .insert s, .consume .semi s, .consume .inner s]
    ∃ ix, spec.index 0 = .ok (.shared ix) ∧
      (∀ (op : Operator) (probe : Solution),
        ((ix.run ops).state.perform (.consume op probe)).answer =
            ((ix.run ops).state.perform (.join op probe)).answer ∧
          (ix.run ops).state.core.Loses ((ix.run ops).state.perform (.consume op probe)).state.core
            ((ix.run ops).state.core.matched op probe)) ∧
        (ix.consumedIn ops).Nodup ∧
        let t := IndexOp.turnovers ops (ix.run ops).answer
        t.consumed = (ix.consumedIn ops).length ∧
          t.inserted = (ix.run ops).state.core.ledger.size ∧
          t.inserted = (ix.run ops).state.core.stored + t.consumed + t.removed + t.taken := by
  intro s t spec ops
  have hmade : ∃ ix, spec.index 0 = .ok (.shared ix) := ⟨_, rfl⟩
  obtain ⟨ix, h⟩ := hmade
  exact ⟨ix, h, run_consumes h ops⟩

end SharedIndex

end HashJoin
