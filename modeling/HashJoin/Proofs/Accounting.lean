import HashJoin.Proofs.HitHistory
import HashJoin.Proofs.Releasing
import Mathlib.Algebra.BigOperators.Group.Finset.Piecewise

/-! What one operation counts. The counters are raised in many places, for one entry or for
many at once, before a change or after it. What they should say can be told without them, by
looking at the index before and after: how many more entries are stored, which keys have a
bucket that had none, by how much the hits of the entries rise. Each operation raises the
counters by just that. -/

namespace HashJoin

namespace Buckets

variable {before after : Buckets}

/-- The number of keys that have a bucket in `after` and none in `before`. -/
def added (before after : Buckets) : Nat :=
  after.toList.countP fun p => (before.get? p.1).isNone

theorem added_eq_zero (h : ∀ k, before.get? k = none → after.get? k = none) :
    before.added after = 0 := by
  refine List.countP_eq_zero.2 fun p hp hn => ?_
  have hafter : after.get? p.1 = some p.2 := mem_toList_iff.1 hp
  rw [h p.1 (Option.isNone_iff_eq_none.1 hn)] at hafter
  contradiction

/-- If no bucket is lost, the map grows by those that are added. -/
theorem size_eq_add_added (h : ∀ k, after.get? k = none → before.get? k = none) :
    after.size = before.size + before.added after := by
  have hkept : ((after.toList.filter fun p => (before.get? p.1).isSome).map Prod.fst).Perm
      (before.toList.map Prod.fst) := by
    refine (List.perm_ext_iff_of_nodup ?_ before.nodup_toList).2 fun k => ?_
    · exact after.nodup_toList.sublist (List.filter_sublist.map _)
    · simp only [List.mem_map, List.mem_filter, Prod.exists, exists_and_right, exists_eq_right,
        mem_toList_iff, ← Option.isSome_iff_exists]
      refine ⟨And.right, fun hb => ⟨?_, hb⟩⟩
      rw [Option.isSome_iff_ne_none] at hb ⊢
      exact mt (h k) hb
  have hsplit := after.toList.length_eq_countP_add_countP fun p => (before.get? p.1).isSome
  have hlen := hkept.length_eq
  rw [List.length_map, List.length_map, ← List.countP_eq_length_filter] at hlen
  rw [← length_toList, ← length_toList, hsplit, hlen, added]
  refine congrArg (_ + ·) (List.countP_congr fun p _ => ?_)
  cases before.get? p.1 <;> simp

end Buckets

namespace Ledger

variable {before after : Ledger}

/-- By how much the hits of the entries rise, all in all. -/
def rises (before after : Ledger) : Nat :=
  ∑ id ∈ Finset.range after.size, (after.hitsAt id - before.hitsAt id)

theorem rises_eq_zero (h : ∀ id, after.hitsAt id ≤ before.hitsAt id) : before.rises after = 0 :=
  Finset.sum_eq_zero fun id _ => Nat.sub_eq_zero_of_le (h id)

theorem rises_self (ledger : Ledger) : ledger.rises ledger = 0 :=
  rises_eq_zero fun _ => Nat.le_refl _

/-- Entries may be cleared or removed, which raises nothing. -/
theorem Changes.rises_eq_zero {f : Entry → Entry} {ids : List EntryId}
    (h : Changes f ids before after) (hf : ∀ e, (f e).hits ≤ e.hits) : before.rises after = 0 := by
  refine Ledger.rises_eq_zero fun id => ?_
  rw [Ledger.hitsAt, Ledger.hitsAt, h.entry]
  split
  next =>
    cases before[id]? with
    | none => exact Nat.le_refl 0
    | some e => exact hf e
  next => exact Nat.le_refl _

/-- Entries that are hit rise by one each. -/
theorem Changes.rises {f : Entry → Entry} {ids : List EntryId} (h : Changes f ids before after)
    (hf : ∀ e, (f e).hits = e.hits + 1) (hn : ids.Nodup) : before.rises after = ids.length := by
  have hone : ∀ id, after.hitsAt id - before.hitsAt id = if id ∈ ids.toFinset then 1 else 0 := by
    intro id
    rw [h.hitsAt (some .matched) hf, if_congr List.mem_toFinset rfl rfl]
    split
    · exact Nat.add_sub_cancel_left (before.hitsAt id) 1
    · exact Nat.sub_self _
  have hsub : ids.toFinset ⊆ Finset.range after.size := by
    intro id hid
    obtain ⟨e, -, -, he⟩ := h.entry_of_mem (List.mem_toFinset.1 hid)
    exact Finset.mem_range.2 (Array.getElem?_eq_some_iff.1 he).1
  rw [Ledger.rises, Finset.sum_congr rfl fun id _ => hone id, Finset.sum_ite_mem,
    Finset.inter_eq_right.2 hsub, ← Finset.card_eq_sum_ones, List.toFinset_card_of_nodup hn]

end Ledger

/-- The number of solutions that a scan gives out with the reply. -/
def Reply.given : Reply → Nat
  | .solutions found => found.length
  | .next found _ => found.toList.length
  | _ => 0

namespace IndexOp

/-- How many of the solutions that are offered have no key. -/
def turnedAway (c : Config) : IndexOp → Nat
  | .insert s | .insertNew s => if (c.keying s).isMissing then 1 else 0
  | .insertAll solutions => solutions.countP fun s => (c.keying s).isMissing
  | .keying _ | .lookup _ | .probe _ | .mark _ | .clearHits | .scan .. | .summary | .config | .join ..
  | .unshare | .buckets | .remove .. | .removeBucket _ | .consume .. => 0

/-- How many solutions a scan for unmatched entries gives out. -/
def yielded : IndexOp → Reply → Nat
  | .scan .unmatched _, reply => reply.given
  | _, _ => 0

end IndexOp

namespace Index

variable {ix : Index}

/-- The counters are raised by what can be told of an operation without them. -/
structure Accounts (before after : Index) (c : Counters) (op : IndexOp) (reply : Reply) : Prop where
  stored : after.stored + c.removals = before.stored + c.inserts
  buckets : after.bucketCount + c.bucketsDropped =
    before.bucketCount + before.buckets.added after.buckets
  rejected : c.rejected = op.turnedAway before.config
  hits : c.hits = before.ledger.rises after.ledger
  emitted : c.unmatchedEmitted = op.yielded reply

/-! ### Storing -/

/-- From `before` to `after` no bucket is lost, and no hits change. -/
structure Grows (before after : Index) : Prop where
  keys : ∀ k, after.buckets.get? k = none → before.buckets.get? k = none
  hitsAt : ∀ id, after.ledger.hitsAt id = before.ledger.hitsAt id

theorem Grows.refl (ix : Index) : ix.Grows ix := ⟨fun _ => id, fun _ => rfl⟩

theorem Grows.append {ix' : Index} (h : ix.Grows ix') (k : Key) (s : Solution) :
    ix.Grows (ix'.append k s) where
  keys k' hn := by
    refine h.keys k' ?_
    change ((ix'.buckets.ensure k).modify k (· ++ [ix'.ledger.size])).get? k' = none at hn
    rw [Buckets.get?_modify_eq_none, Buckets.get?_ensure] at hn
    split at hn
    next => contradiction
    next => exact hn
  hitsAt id := hitsAt_append (h.hitsAt id) k s

theorem Grows.accounts {after : Index} {op : IndexOp} {reply : Reply} (h : ix.Grows after)
    {inserts rejected probes : Nat} (hstored : after.stored = ix.stored + inserts)
    (hrejected : rejected = op.turnedAway ix.config) (hyielded : op.yielded reply = 0) :
    ix.Accounts after { inserts, rejected, probes } op reply where
  stored := hstored
  buckets := Buckets.size_eq_add_added h.keys
  rejected := hrejected
  hits := (Ledger.rises_eq_zero fun id => Nat.le_of_eq (h.hitsAt id)).symm
  emitted := hyielded.symm

theorem accounts_insert (ix : Index) (s : Solution) : ix.Accounts (ix.perform (.insert s)).state
    (ix.perform (.insert s)).counters (.insert s) (ix.perform (.insert s)).answer := by
  have hgrows : ix.Grows (ix.insert s).state := insertKeyed_keeps Grows.append (.refl ix) s _
  change ix.Accounts (ix.insert s).state (ix.insert s).counters _ (.entry _)
  rw [Index.insert, keying] at hgrows ⊢
  cases hk : ix.config.keying s with
  | key k | missing v =>
    rw [hk] at hgrows
    exact hgrows.accounts rfl (by rw [IndexOp.turnedAway, hk]; rfl) rfl

theorem accounts_insertNew (ix : Index) (s : Solution) :
    ix.Accounts (ix.perform (.insertNew s)).state (ix.perform (.insertNew s)).counters (.insertNew s)
      (ix.perform (.insertNew s)).answer := by
  have hgrows : ix.Grows (ix.insertNew s).state := insertNewKeyed_keeps Grows.append (.refl ix) s _
  change ix.Accounts (ix.insertNew s).state (ix.insertNew s).counters _ (.flag _)
  rw [Index.insertNew, keying] at hgrows ⊢
  cases hk : ix.config.keying s with
  | key k =>
    rw [hk, insertNewKeyed] at hgrows
    rw [insertNewKeyed]
    split at hgrows
    next hheld =>
      rw [if_pos hheld]
      exact hgrows.accounts rfl (by rw [IndexOp.turnedAway, hk]; rfl) rfl
    next hheld =>
      rw [if_neg hheld]
      exact hgrows.accounts rfl (by rw [IndexOp.turnedAway, hk]; rfl) rfl
  | missing v =>
    rw [hk] at hgrows
    exact hgrows.accounts rfl (by rw [IndexOp.turnedAway, hk]; rfl) rfl

theorem Coherent.accounts_insertAll (h : ix.Coherent) (solutions : List Solution) :
    ix.Accounts (ix.perform (.insertAll solutions)).state
      (ix.perform (.insertAll solutions)).counters (.insertAll solutions)
      (ix.perform (.insertAll solutions)).answer := by
  have hgrows : ix.Grows (ix.insertAll solutions).state :=
    foldl_addKeyed_keeps Grows.append (.refl ix) {} _
  have hbase : (AnyIndex.base ix).Coherent := h.follows
  have hstored := hbase.stored_perform (.insertAll solutions)
  have hanswer := h.follows.insertAll_answer solutions
  exact hgrows.accounts hstored (congrArg Intake.rejected hanswer) rfl

/-! ### Taking out -/

theorem Releases.accounts {after : Index} {c : Counters} {op : IndexOp} {reply : Reply}
    (h : ix.Releases after c) (hhits : c.hits = ix.ledger.rises after.ledger)
    (hturned : op.turnedAway ix.config = 0) (hyielded : op.yielded reply = 0) :
    ix.Accounts after c op reply where
  stored := by rw [h.stored, h.inserts, Nat.add_zero]
  buckets := by rw [h.buckets, Buckets.added_eq_zero h.keys, Nat.add_zero]
  rejected := h.rejected.trans hturned.symm
  hits := hhits
  emitted := h.emitted.trans hyielded.symm

/-! ### Matching -/

/-- A joining probe counts the bucket that it looks up and the marks that it makes. None of
the marks is refused. -/
theorem Coherent.counters_join (h : ix.Coherent) (op : Operator) (probe : Solution) :
    (ix.join op probe).counters =
      { probes := if ix.config.hasKey probe then 1 else 0
        hits := (if op.countsHits then ix.matched op probe else []).length } := by
  have hmarks := congrArg Step.counters (ix.markAll_of_live (h.changes_join op probe).live)
  rw [Index.join, Step.andThen_counters, probe_state, joinBucket_counters, probe_counters]
  rw [matched] at hmarks ⊢
  rw [hmarks]
  ext <;> simp

/-- A joining probe counts a match on each entry that it hits. -/
theorem Coherent.hits_join (h : ix.Coherent) (op : Operator) (probe : Solution) :
    (ix.join op probe).counters.hits = ix.ledger.rises (ix.join op probe).state.ledger := by
  have hnodup := h.nodup_matched op probe
  rw [h.counters_join, (h.changes_join op probe).rises fun _ => rfl]
  split
  next => exact hnodup
  next => exact List.nodup_nil

/-- A consuming probe counts a match on each entry that it takes out. -/
theorem Coherent.hits_consume (h : ix.Coherent) (op : Operator) (probe : Solution) :
    (ix.consumeKeyed op probe (ix.keying probe)).counters.hits =
      ix.ledger.rises (ix.consumeKeyed op probe (ix.keying probe)).state.ledger := by
  have hstored := (h.loses_consumeKeyed op probe).stored
  rw [(h.changes_consume op probe).rises (fun _ => rfl) (h.nodup_matched op probe)]
  rw [matched, Index.probe] at hstored ⊢
  cases hk : ix.keying probe with
  | missing v => rfl
  | key k =>
    rw [hk] at hstored
    change 0 + (ix.consumeBucket op probe k (ix.buckets.get? k)).counters.hits =
      ((ix.matching op probe ((ix.buckets.get? k).getD [])).map Prod.fst).length
    change ∀ id ∈ (ix.matching op probe ((ix.buckets.get? k).getD [])).map Prod.fst, _ at hstored
    cases hb : ix.buckets.get? k with
    | none => rfl
    | some bucket =>
      rw [hb] at hstored
      change 0 + ((ix.markAll _).counters.hits + (removeAll _ k _).counters.hits) = _
      rw [hits_removeAll]
      exact (Nat.zero_add _).trans (h.hits_markAll hstored)

/-! ### Operations -/

/-- What an operation does that only looks at the index. -/
theorem accounts_look (ix : Index) {op : IndexOp} {reply : Reply} (probes : Nat)
    (hturned : op.turnedAway ix.config = 0) (hyielded : op.yielded reply = 0) :
    ix.Accounts ix { probes } op reply :=
  (Releases.of_buckets rfl rfl probes 0).accounts (Ledger.rises_self _).symm hturned hyielded

theorem accounts_scan (ix : Index) (hitClass : HitClass) (limit : Option Nat)
    (found : List Solution) : ix.Accounts ix (hitClass.emitting found.length)
      (.scan hitClass limit) (.solutions found) := by
  have hlook : ix.Accounts ix 0 .summary .done := ix.accounts_look 0 rfl rfl
  cases hitClass with
  | unmatched | matched => exact ⟨rfl, hlook.buckets, rfl, hlook.hits, rfl⟩

theorem accounts_mark (ix : Index) (e : Handle) : ix.Accounts (ix.mark e).state
    (ix.mark e).counters (.mark e) (.flag (ix.mark e).answer) := by
  refine (ix.releases_mark e).accounts ?_ rfl rfl
  have hchanges := ix.changes_mark e
  cases ha : (ix.mark e).answer with
  | false => rw [mark_of_refused ha]; exact (Ledger.rises_self _).symm
  | true =>
    rw [ha, if_pos rfl] at hchanges
    rw [hchanges.rises (fun _ => rfl) (List.nodup_singleton _)]
    rw [mark] at ha ⊢
    split at ha
    next hl => rw [if_pos hl]; rfl
    next => contradiction

theorem Coherent.accounts_clearHits (h : ix.Coherent) :
    ix.Accounts ix.clearHits.state ix.clearHits.counters .clearHits .done := by
  have hrises := h.changes_clearHits.rises_eq_zero fun e => Nat.zero_le e.hits
  refine Releases.accounts (.of_buckets ?_ ?_ 0 0) hrises.symm rfl rfl
  · rfl
  · rfl

theorem Coherent.accounts (h : ix.Coherent) (op : IndexOp) :
    ix.Accounts (ix.perform op).state (ix.perform op).counters op (ix.perform op).answer := by
  cases op with
  | insert s => exact ix.accounts_insert s
  | insertAll solutions => exact h.accounts_insertAll solutions
  | insertNew s => exact ix.accounts_insertNew s
  | scan hitClass limit => exact ix.accounts_scan hitClass limit _
  | mark e => exact ix.accounts_mark e
  | clearHits => exact h.accounts_clearHits
  | join op probe => exact (h.releases_join op probe).accounts (h.hits_join op probe) rfl rfl
  | probe s =>
    change ix.Accounts (ix.probe s).state (ix.probe s).counters _ (.bucket _)
    rw [Index.probe]
    cases ix.keying s with
    | key k => exact ix.accounts_look 1 rfl rfl
    | missing v => exact ix.accounts_look 0 rfl rfl
  | lookup k => exact ix.accounts_look 1 rfl rfl
  | keying s | summary | config | unshare | buckets | remove k e | removeBucket k
    | consume op probe => exact ix.accounts_look 0 rfl rfl

theorem Coherent.accounts_remove (h : ix.Coherent) (k : Key) (e : Handle) :
    ix.Accounts (ix.remove k e).state (ix.remove k e).counters (.remove k e)
      (.flag (ix.remove k e).answer) := by
  have hrises := (h.changes_remove k e).rises_eq_zero fun e => Nat.le_refl e.hits
  exact (h.releases_remove k e).accounts ((ix.hits_remove k e).trans hrises.symm) rfl rfl

theorem Coherent.accounts_removeBucket (h : ix.Coherent) (k : Key) {reply : Reply} :
    ix.Accounts (ix.removeBucket k).state (ix.removeBucket k).counters (.removeBucket k) reply := by
  have hrises := (h.changes_removeBucket k).rises_eq_zero fun e => Nat.le_refl e.hits
  have hhits : (ix.removeBucket k).counters.hits = 0 := by
    rw [removeBucket]
    cases ix.buckets.get? k <;> rfl
  exact (h.releases_removeBucket k).accounts (hhits.trans hrises.symm) rfl rfl

end Index

namespace SharedIndex

variable {ix : SharedIndex}

theorem Coherent.accounts (h : ix.Coherent) (op : IndexOp) : ix.core.Accounts
    (ix.perform op).state.core (ix.perform op).counters op (ix.perform op).answer := by
  have hc := h.core.coherent
  rw [h.eq_ofIndex]
  generalize ix.core = core at hc
  have hboth := hc.accounts op
  cases op with
  | remove k e => exact hc.accounts_remove k e
  | removeBucket k => exact hc.accounts_removeBucket k
  | consume op probe =>
    exact (hc.releases_consume op probe).accounts (hc.hits_consume op probe) rfl rfl
  | scan hitClass limit => exact core.accounts_scan hitClass limit _
  | unshare | buckets => exact core.accounts_look 0 rfl rfl
  | insert s | insertAll solutions | insertNew s | keying s | lookup k | probe s | mark e
    | clearHits | summary | config | join op probe => exact hboth

end SharedIndex

namespace AnyIndex

variable {ix : AnyIndex}

/-- Every operation raises the counters by what it does. -/
theorem Coherent.accounts (h : ix.Coherent) (op : IndexOp) : ix.core.Accounts
    (ix.perform op).state.core (ix.perform op).counters op (ix.perform op).answer := by
  cases ix with
  | base ix => exact Index.Coherent.accounts (Index.Follows.coherent h) op
  | shared ix =>
    by_cases hop : op = .unshare
    · subst hop
      exact ix.core.accounts_look 0 rfl rfl
    · rw [perform_shared ix hop]
      exact SharedIndex.Coherent.accounts h op

end AnyIndex

end HashJoin
