import HashJoin.Proofs.Keying
import HashJoin.Proofs.Removal

/-! Operations that take entries out, or only look at them. What a removal takes from the count
of the entries it adds to the removals, and what it takes from the map to the dropped buckets.
So do many of them, one after the other, and so does a probe that marks its matches first. No
such operation gives a key a bucket, and apart from marks and look-ups nothing else is counted. -/

namespace HashJoin

namespace Index

variable {ix : Index}

/-- From `before` to `after` no bucket is added, and what is taken out is counted. -/
structure Releases (before after : Index) (c : Counters) : Prop where
  stored : after.stored + c.removals = before.stored
  buckets : after.bucketCount + c.bucketsDropped = before.bucketCount
  keys : ∀ k, before.buckets.get? k = none → after.buckets.get? k = none
  inserts : c.inserts = 0
  rejected : c.rejected = 0
  emitted : c.unmatchedEmitted = 0

/-- Looking up and marking take nothing out. -/
theorem Releases.of_buckets {after : Index} (hb : after.buckets = ix.buckets)
    (hs : after.stored = ix.stored) (probes hits : Nat) :
    ix.Releases after { probes, hits } where
  stored := hs
  buckets := congrArg Buckets.size hb
  keys k hn := by rwa [hb]
  inserts := rfl
  rejected := rfl
  emitted := rfl

theorem Releases.refl (ix : Index) : ix.Releases ix 0 := .of_buckets rfl rfl 0 0

theorem Releases.trans {ix' ix'' : Index} {c c' : Counters} (h : ix.Releases ix' c)
    (h' : ix'.Releases ix'' c') : ix.Releases ix'' (c + c') where
  stored := by
    rw [← h.stored, ← h'.stored, Counters.add_removals]
    omega
  buckets := by
    rw [← h.buckets, ← h'.buckets, Counters.add_bucketsDropped]
    omega
  keys k hn := h'.keys k (h.keys k hn)
  inserts := by rw [Counters.add_inserts, h.inserts, h'.inserts]
  rejected := by rw [Counters.add_rejected, h.rejected, h'.rejected]
  emitted := by rw [Counters.add_unmatchedEmitted, h.emitted, h'.emitted]

/-- Steps that take out, one after the other. -/
theorem releases_each {α β : Type} {step : Index → β → Step Index α}
    (hstep : ∀ ix : Index, ix.Coherent → ∀ x, (step ix x).state.Coherent ∧
      ix.Releases (step ix x).state (step ix x).counters)
    (h : ix.Coherent) (xs : List β) :
    ix.Releases (Step.each step ix xs).state (Step.each step ix xs).counters := by
  induction xs generalizing ix with
  | nil => exact .refl ix
  | cons x xs ih =>
    obtain ⟨hc, hone⟩ := hstep ix h x
    exact hone.trans (ih hc)

theorem releases_mark (ix : Index) (e : Handle) :
    ix.Releases (ix.mark e).state (ix.mark e).counters := by
  rw [mark]
  split
  next =>
    refine .of_buckets ?_ ?_ 0 1
    · rfl
    · rfl
  next => exact .refl ix

theorem Coherent.releases_remove (h : ix.Coherent) (k : Key) (e : Handle) :
    ix.Releases (ix.remove k e).state (ix.remove k e).counters := by
  cases ha : (ix.remove k e).answer with
  | false =>
    rw [remove_of_refused ha]
    exact .refl ix
  | true =>
    have hbuckets := ix.bucketCount_remove k e
    have hstored := (h.removes ha).stored
    rw [remove] at ha hbuckets hstored ⊢
    cases hb : ix.buckets.get? k with
    | none => rw [hb] at ha; contradiction
    | some bucket =>
      rw [hb] at ha hbuckets hstored
      dsimp only at ha hbuckets hstored ⊢
      split at ha
      next ho =>
        rw [if_pos ho] at hbuckets hstored ⊢
        refine ⟨hstored, hbuckets, fun k' hn => ?_, rfl, rfl, rfl⟩
        dsimp only
        split
        next => rw [Buckets.get?_erase, hn, ite_self]
        next => exact Buckets.get?_modify_eq_none.2 hn
      next => contradiction

theorem Coherent.releases_removeBucket (h : ix.Coherent) (k : Key) :
    ix.Releases (ix.removeBucket k).state (ix.removeBucket k).counters := by
  rw [removeBucket]
  cases hb : ix.buckets.get? k with
  | none => exact .refl ix
  | some bucket =>
    have hle : bucket.length ≤ ix.stored := by
      rw [h.get?_eq_some hb, Log.chainIds, List.length_map, h.stored]
      exact List.length_filter_le _ _
    refine ⟨Nat.sub_add_cancel hle, Buckets.size_erase hb, fun k' hn => ?_, rfl, rfl, rfl⟩
    rw [Buckets.get?_erase, hn, ite_self]

theorem Coherent.releases_markAll (h : ix.Coherent) (ids : List EntryId) :
    ix.Releases (ix.markAll ids).state (ix.markAll ids).counters :=
  releases_each (fun ix h _ => ⟨(h.follows.mark _).1.coherent, ix.releases_mark _⟩) h ids

theorem Coherent.releases_removeAll (h : ix.Coherent) (k : Key) (ids : List EntryId) :
    ix.Releases (ix.removeAll k ids).state (ix.removeAll k ids).counters :=
  releases_each (fun _ h _ => ⟨(h.follows.remove k _).1.coherent, h.releases_remove k _⟩) h ids

theorem releases_probe (ix : Index) (probe : Solution) :
    ix.Releases (ix.probe probe).state (ix.probe probe).counters := by
  rw [Index.probe]
  cases ix.keying probe <;> exact .of_buckets rfl rfl _ 0

theorem Coherent.releases_join (h : ix.Coherent) (op : Operator) (probe : Solution) :
    ix.Releases (ix.join op probe).state (ix.join op probe).counters := by
  refine (ix.releases_probe probe).trans ?_
  change Releases _ ((ix.probe probe).state.joinBucket op probe _).state
    ((ix.probe probe).state.joinBucket op probe _).counters
  rw [probe_state]
  cases (ix.probe probe).answer with
  | none => exact .refl ix
  | some bucket => exact h.releases_markAll _

theorem Coherent.releases_consume (h : ix.Coherent) (op : Operator) (probe : Solution) :
    ix.Releases (ix.consumeKeyed op probe (ix.keying probe)).state
      (ix.consumeKeyed op probe (ix.keying probe)).counters := by
  cases ix.keying probe with
  | missing v => exact .refl ix
  | key k =>
    refine (Releases.of_buckets rfl rfl 1 0 : ix.Releases ix _).trans ?_
    change ix.Releases (ix.consumeBucket op probe k (ix.buckets.get? k)).state
      (ix.consumeBucket op probe k (ix.buckets.get? k)).counters
    cases ix.buckets.get? k with
    | none => exact .refl ix
    | some bucket =>
      exact (h.releases_markAll _).trans ((h.markAll _).releases_removeAll k _)

/-! ### Matches that are counted -/

theorem Coherent.hits_markAll (h : ix.Coherent) {ids : List EntryId}
    (hids : ∀ id ∈ ids, id ∈ ix.storedIds) : (ix.markAll ids).counters.hits = ids.length := by
  rw [markAll_of_live fun id hid => h.any_live.2 (hids id hid)]

theorem hits_remove (ix : Index) (k : Key) (e : Handle) : (ix.remove k e).counters.hits = 0 := by
  rw [remove]
  split
  next => rfl
  next => split <;> rfl

theorem hits_removeAll (ix : Index) (k : Key) (ids : List EntryId) :
    (ix.removeAll k ids).counters.hits = 0 := by
  induction ids generalizing ix with
  | nil => rfl
  | cons id ids ih =>
    change (ix.remove k _).counters.hits + ((ix.remove k _).state.removeAll k ids).counters.hits = 0
    rw [hits_remove, ih]

/-- A bucket is looked up for every probe that has a key. -/
theorem probe_counters (ix : Index) (probe : Solution) : (ix.probe probe).counters =
    { probes := if ix.config.hasKey probe then 1 else 0 } := by
  rw [Index.probe, Config.hasKey, keying]
  cases ix.config.keying probe <;> rfl

end Index

end HashJoin
