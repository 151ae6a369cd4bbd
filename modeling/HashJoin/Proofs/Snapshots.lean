import HashJoin.Proofs.OpenScans
import HashJoin.Proofs.Probing

/-! Buckets that were handed out and kept. Such a bucket is the list of entries that lay under
one key at that time, and which entries it has never changes, while the bucket that it was taken
from may lose entries, go with the last of them and be made anew. The entries themselves are
those of the index: what happens to one there shows in the bucket that was kept, and a match
counted through the bucket shows in the scans of the index, unless the entry is gone. -/

namespace HashJoin

namespace Index

variable {ix : Index}

theorem snapshot_of_map {found : Option Bucket} {b : Snapshot}
    (h : Reply.bucket (found.map ix.snapshot) = .bucket (some b)) :
    b.owner = ix.owner ∧ found = some b.ids := by
  obtain ⟨bucket, rfl, rfl⟩ := Option.map_eq_some_iff.1 (Reply.bucket.inj h)
  exact ⟨rfl, rfl⟩

theorem stored_of_probeKeyed {keying : Keying} {bucket : Bucket}
    (h : (ix.probeKeyed keying).answer = some bucket) : ∃ k, ix.buckets.get? k = some bucket := by
  cases keying with
  | key k => exact ⟨k, h⟩
  | missing v => contradiction

theorem stored_of_removeBucket {k : Key} {bucket : Bucket}
    (h : (ix.removeBucket k).answer = some bucket) : ix.buckets.get? k = some bucket := by
  rw [removeBucket] at h
  split at h
  next => contradiction
  next hb => rw [hb, ← h]

/-- A bucket that is handed out is one of the map. -/
theorem stored_of_perform {op : IndexOp} {b : Snapshot}
    (h : (ix.perform op).answer = .bucket (some b)) :
    b.owner = ix.owner ∧ ∃ k, ix.buckets.get? k = some b.ids := by
  cases op with
  | lookup k =>
    obtain ⟨howner, hb⟩ := snapshot_of_map h
    exact ⟨howner, k, hb⟩
  | probe s =>
    obtain ⟨howner, hb⟩ := snapshot_of_map h
    exact ⟨howner, stored_of_probeKeyed hb⟩
  | insert s | insertAll solutions | insertNew s | keying s | mark e | clearHits | scan c limit
    | summary | config | join op probe | unshare | buckets | remove k e | removeBucket k
    | consume op probe => exact nomatch h

/-! ### Marks -/

theorem mark_answer_handle (ix : Index) (id : EntryId) :
    (ix.mark (ix.handle id)).answer = ix.ledger[id]?.any Entry.live := by
  rw [mark_answer, isLive_handle]

theorem storedIds_mark (ix : Index) (e : Handle) : (ix.mark e).state.storedIds = ix.storedIds := by
  rw [mark_frame]
  rfl

theorem changes_of_mark {id : EntryId} (h : (ix.mark (ix.handle id)).answer = true) :
    ix.ledger.Changes Entry.hit [id] (ix.mark (ix.handle id)).state.ledger := by
  have hchanges := ix.changes_mark (ix.handle id)
  rwa [h, if_pos rfl] at hchanges

/-- After a mark that was not refused a scan takes the entry for a matched one, and takes the
others as before. -/
theorem solutions_mark {id : EntryId} (h : (ix.mark (ix.handle id)).answer = true)
    (hitClass : HitClass) (ids : List EntryId) :
    hitClass.solutions (ix.mark (ix.handle id)).state.ledger ids =
      (ids.filter fun id' =>
        (if id' = id then .matched else .ofCount (ix.ledger.hitsAt id')) = hitClass).filterMap
          fun id' => ix.ledger[id']?.map Entry.solution := by
  have hchanges := changes_of_mark h
  rw [HitClass.solutions_eq_filterMap]
  have hclass : ∀ id', HitClass.ofCount ((ix.mark (ix.handle id)).state.ledger.hitsAt id') =
      if id' = id then .matched else .ofCount (ix.ledger.hitsAt id') := by
    intro id'
    rw [hchanges.hitsAt (some .matched) (fun _ => rfl) id']
    simp only [List.mem_singleton]
    split
    · rfl
    · rfl
  simp only [hclass]
  refine List.filterMap_congr fun id' _ => ?_
  rw [hchanges.entry]
  split
  · rw [Option.map_map]
    rfl
  · rfl

end Index

namespace SharedIndex

variable {ix : SharedIndex}

theorem stored_of_perform {op : IndexOp} {b : Snapshot}
    (h : (ix.perform op).answer = .bucket (some b)) :
    b.owner = ix.core.owner ∧ ∃ k, ix.core.buckets.get? k = some b.ids := by
  cases op with
  | lookup k =>
    obtain ⟨howner, hb⟩ := Index.snapshot_of_map h
    exact ⟨howner, k, hb⟩
  | probe s =>
    obtain ⟨howner, hb⟩ := Index.snapshot_of_map h
    exact ⟨howner, Index.stored_of_probeKeyed hb⟩
  | removeBucket k =>
    obtain ⟨howner, hb⟩ := Index.snapshot_of_map h
    exact ⟨howner, k, Index.stored_of_removeBucket hb⟩
  | insert s | insertAll solutions | insertNew s | keying s | mark e | clearHits | scan c limit
    | summary | config | join op probe | unshare | buckets | remove k e | consume op probe =>
    exact nomatch h

end SharedIndex

namespace AnyIndex

variable {ix : AnyIndex}

theorem stored_of_perform {op : IndexOp} {b : Snapshot}
    (h : (ix.perform op).answer = .bucket (some b)) :
    b.owner = ix.core.owner ∧ ∃ k, ix.core.buckets.get? k = some b.ids := by
  cases ix with
  | base ix => exact Index.stored_of_perform h
  | shared ix =>
    have hne : op ≠ .unshare := by
      rintro rfl
      exact nomatch h
    rw [perform_shared ix hne] at h
    exact SharedIndex.stored_of_perform h

end AnyIndex

namespace Session

variable {specs : List IndexSpec} {s : Session} {b : Snapshot}

/-- A snapshot of known entries shows the same solutions after any operations. -/
theorem MadeBy.solutions_run (h : s.MadeBy specs) (hknown : ∀ id ∈ b.ids, s.Knows ⟨b.owner, id⟩)
    (ops : List Op) : ((s.run ops).1.entries b).map (fun p => (p.1, p.2.solution)) =
      (s.entries b).map fun p => (p.1, p.2.solution) := by
  rw [entries, entries, List.map_filterMap, List.map_filterMap]
  refine List.filterMap_congr fun id hid => ?_
  obtain ⟨ix, hix, hlt⟩ := hknown id hid
  have he : (s.ledger b.owner)[id]? = some ix.core.ledger[id] := by
    rw [ledger_of_index hix]
    exact Array.getElem?_eq_getElem hlt
  obtain ⟨e, he', hsame, -⟩ := h.precedes_run ops b.owner id _ he
  rw [he, he']
  exact congrArg (fun solution => some (id, solution)) hsame

/-- A bucket that is handed out is one of the map, and its entries are known. -/
theorem MadeBy.stored_of_step (h : s.MadeBy specs) {place : Nat} {op : IndexOp}
    (hb : (s.step (.on place op)).2 = .bucket (some b)) :
    ∃ ix k, s.indices[place]? = some ix ∧ b.owner = place ∧
      ix.core.buckets.get? k = some b.ids ∧ ∀ id ∈ b.ids, s.Knows ⟨b.owner, id⟩ := by
  rw [Session.step] at hb
  split at hb
  next => contradiction
  next ix hix =>
    obtain ⟨spec, -, hmade⟩ := h place ix hix
    obtain ⟨howner, k, hk⟩ := AnyIndex.stored_of_perform hb
    obtain rfl : b.owner = place := howner.trans hmade.owner
    refine ⟨ix, k, hix, rfl, hk, fun id hid => ⟨ix, hix, ?_⟩⟩
    exact hmade.coherent.core.coherent.wellFormed.below id (Index.mem_storedIds hk hid)

/-- A mark through a handle that can be read is refused if the entry is gone. If the entry is
there it has one hit more, and a scan takes it for a matched one. -/
theorem MadeBy.marks (h : s.MadeBy specs) {place : Nat} {ix : AnyIndex}
    (hix : s.indices[place]? = some ix) {id : EntryId} {entry : Entry}
    (he : s.entry? ⟨place, id⟩ = some entry) :
    (entry.live = false → s.step (.on place (.mark ⟨place, id⟩)) = (s, .flag false)) ∧
    (entry.live = true →
      let after := (s.step (.on place (.mark ⟨place, id⟩))).1
      (s.step (.on place (.mark ⟨place, id⟩))).2 = .flag true ∧
      after.entry? ⟨place, id⟩ = some entry.hit ∧
      ∀ hitClass : HitClass, (after.step (.on place (.scan hitClass none))).2 = .solutions
        ((ix.core.storedIds.filter fun id' =>
          (if id' = id then .matched else .ofCount (ix.core.ledger.hitsAt id')) = hitClass).filterMap
            fun id' => ix.core.ledger[id']?.map Entry.solution)) := by
  refine ⟨fun hdead => (h.refuses he hdead hix).1, fun hlive => ?_⟩
  intro after
  obtain ⟨spec, -, hmade⟩ := h place ix hix
  obtain rfl : ix.core.owner = place := hmade.owner
  have hread : ix.core.ledger[id]? = some entry :=
    (entry_of_index (e := ⟨ix.core.owner, id⟩) hix).symm.trans he
  have hm : (ix.core.mark (ix.core.handle id)).answer = true := by
    rw [Index.mark_answer_handle, hread]
    exact hlive
  have hstep := step_on_map hix (ix.perform_mark (ix.core.handle id))
  have hafter : after.indices[ix.core.owner]? =
      some (ix.withCore (ix.core.mark (ix.core.handle id)).state) := by
    have hindex := step_on_index hix (.mark (ix.core.handle id))
    rwa [ix.perform_mark] at hindex
  refine ⟨?_, ?_, fun hitClass => ?_⟩
  · rw [← hm]
    exact congrArg Prod.snd hstep
  · rw [entry_of_index (e := ⟨ix.core.owner, id⟩) hafter, AnyIndex.core_withCore,
      (Index.changes_of_mark hm).entry, if_pos List.mem_cons_self, hread]
    rfl
  · rw [step_on_reply hafter, AnyIndex.scan_answer_eq, AnyIndex.core_withCore,
      Index.storedIds_mark, Index.solutions_mark hm]

/-- A bucket that was handed out is not empty and has its entries in the order of their arrival.
At any later time it has the same ones with the same solutions. Each of them reads as in the
index: it shows its matches since it was last cleared, and it is live exactly if it is stored. One
that is not live reads so for good, and a mark on it is refused; a mark on one that is live shows
in the bucket and in the scans of the index. -/
theorem run_keeps_snapshots (h : ofSpecs specs = .ok s) (ops : List Op) {place : Nat}
    {op : IndexOp} (hb : ((s.run ops).1.step (.on place op)).2 = .bucket (some b))
    (later : List Op) :
    let before := (s.run ops).1
    let now := ((before.step (.on place op)).1.run later).1
    (b.owner = place ∧ b.ids ≠ [] ∧ b.ids.Pairwise (· < ·) ∧
      ∃ ix k, before.indices[place]? = some ix ∧ ix.core.buckets.get? k = some b.ids) ∧
    (now.entries b).map Prod.fst = b.ids ∧
    (now.entries b).map (fun p => (p.1, p.2.solution)) =
      (before.entries b).map (fun p => (p.1, p.2.solution)) ∧
    ∃ ix, now.indices[place]? = some ix ∧ ∀ id entry, (id, entry) ∈ now.entries b →
      ix.core.ledger[id]? = some entry ∧ (entry.live = true ↔ id ∈ ix.core.storedIds) ∧
      entry.hits = HitEvent.sinceCleared (s.hitHistory ⟨place, id⟩ (ops ++ .on place op :: later)) ∧
      let marked := now.step (.on place (.mark ⟨place, id⟩))
      (entry.live = false → marked = (now, .flag false) ∧
        ∀ more, (id, entry) ∈ (now.run more).1.entries b) ∧
      (entry.live = true → marked.2 = .flag true ∧ (id, entry.hit) ∈ marked.1.entries b ∧
        ∀ hitClass : HitClass, (marked.1.step (.on place (.scan hitClass none))).2 = .solutions
          ((ix.core.storedIds.filter fun id' => (if id' = id then .matched
            else .ofCount (ix.core.ledger.hitsAt id')) = hitClass).filterMap fun id' =>
              ix.core.ledger[id']?.map Entry.solution)) := by
  intro before now
  have hbefore := (madeBy_of_ofSpecs h).run ops
  obtain ⟨first, k, hfirst, rfl, hk, hknown⟩ := hbefore.stored_of_step hb
  obtain ⟨spec, -, hmade⟩ := hbefore b.owner first hfirst
  have hwell := hmade.coherent.core.coherent.wellFormed
  have hbucket := Buckets.mem_toList_iff.2 hk
  have hmadeNow : now.MadeBy specs := hbefore.run (.on b.owner op :: later)
  have hknownNow : ∀ id ∈ b.ids, now.Knows ⟨b.owner, id⟩ := fun id hid =>
    hbefore.knows_run (.on b.owner op :: later) (hknown id hid)
  obtain ⟨id, hid⟩ := List.exists_mem_of_ne_nil _ (hwell.nonempty k b.ids hbucket)
  obtain ⟨ix, hix, -⟩ := hknownNow id hid
  refine ⟨⟨rfl, hwell.nonempty k b.ids hbucket, hwell.rising k b.ids hbucket, first, k, hfirst, hk⟩,
    map_fst_entries hknownNow, hbefore.solutions_run hknown (.on b.owner op :: later), ix, hix, ?_⟩
  intro id entry hmem
  obtain ⟨hid, hread⟩ := mem_entries.1 hmem
  obtain ⟨hdead, hlive⟩ := hmadeNow.marks hix hread
  have hledger : ix.core.ledger[id]? = some entry :=
    (entry_of_index (e := ⟨b.owner, id⟩) hix).symm.trans hread
  refine ⟨hledger, ?_, ?_, fun hl => ⟨hdead hl, fun more => ?_⟩, fun hl => ?_⟩
  · obtain ⟨spec', -, hmade'⟩ := hmadeNow b.owner ix hix
    rw [← hmade'.coherent.core.coherent.any_live, hledger, Option.any_some]
  · have hnow : now = (s.run (ops ++ .on b.owner op :: later)).1 := by
      rw [run_append]
      rfl
    rw [← hitsAt_run_of_ofSpecs h, ← hnow, ledger_of_index hix, Ledger.hitsAt, hledger]
    rfl
  · exact mem_entries.2 ⟨hid, hmadeNow.entry?_run hread hl more⟩
  · obtain ⟨hflag, hhit, hscan⟩ := hlive hl
    exact ⟨hflag, mem_entries.2 ⟨hid, hhit⟩, hscan⟩

/-- Of two entries in a bucket that was handed out the first is removed, and an equal one comes in
under the same key. The hits are cleared, which leaves the removed entry as it was. -/
theorem run_keeps_snapshots_removed :
    let s := Solution.ofBindings [(⟨"x"⟩, .integer 1)]
    let t := Solution.ofBindings [(⟨"x"⟩, .integer 2)]
    let k := Key.ofSlots [some (.integer 1)]
    let source := ConfigSource.ofSettings [.vars [⟨"x"⟩]]
    let specs : List IndexSpec := [⟨false, source, none⟩, ⟨true, source, some (.empty .arrival)⟩]
    let ops : List Op := [.on 0 (.insert s), .on 1 (.insertAll [s, t, s]), .on 1 (.mark ⟨1, 0⟩)]
    let later : List Op := [.on 1 (.remove k ⟨1, 0⟩), .on 1 (.insert s), .on 1 .clearHits]
    let b : Snapshot := ⟨1, [0, 2]⟩
    ∃ start, ofSpecs specs = .ok start ∧
      let before := (start.run ops).1
      let now := ((before.step (.on 1 (.probe s))).1.run later).1
      (before.step (.on 1 (.probe s))).2 = .bucket (some b) ∧
      now.step (.on 1 (.mark ⟨1, 0⟩)) = (now, .flag false) ∧
      (∀ more, (0, ⟨s, 1, false⟩) ∈ (now.run more).1.entries b) ∧
      (now.step (.on 1 (.mark ⟨1, 2⟩))).2 = .flag true ∧
      (2, ⟨s, 1, true⟩) ∈ (now.step (.on 1 (.mark ⟨1, 2⟩))).1.entries b := by
  intro s t k source specs ops later b
  have hmade : ∃ start, ofSpecs specs = .ok start ∧
      let before := (start.run ops).1
      let now := ((before.step (.on 1 (.probe s))).1.run later).1
      (before.step (.on 1 (.probe s))).2 = .bucket (some b) ∧
      now.entries b = [(0, ⟨s, 1, false⟩), (2, ⟨s, 0, true⟩)] := by
    subst b later ops specs source k t s
    exact ⟨_, rfl, by decide +kernel⟩
  obtain ⟨start, h, hb, hentries⟩ := hmade
  obtain ⟨-, -, -, ix, -, hshown⟩ := run_keeps_snapshots h ops hb later
  obtain ⟨-, -, -, hremoved, -⟩ := hshown 0 ⟨s, 1, false⟩ (hentries ▸ List.mem_cons_self)
  obtain ⟨-, -, -, -, hstored⟩ := hshown 2 ⟨s, 0, true⟩
    (hentries ▸ List.mem_cons_of_mem _ List.mem_cons_self)
  obtain ⟨hrefused, hfrozen⟩ := hremoved rfl
  obtain ⟨hmarked, hhit, -⟩ := hstored rfl
  exact ⟨start, h, hb, hrefused, hfrozen, hmarked, hhit⟩

end Session

end HashJoin
