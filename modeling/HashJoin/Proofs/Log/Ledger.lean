import HashJoin.Proofs.Log

/-! The live entries of a ledger as records. A ledger keeps its removed entries, and a
record is at the place that its number says, so the records come in strictly rising order
of their numbers. Each kind of change of a ledger is a change of its records: a new entry
is put at the end, a hit or a clearing changes a count, and a retirement deletes. -/

namespace HashJoin

namespace Record

/-- The entry that the record is of. -/
def entry (r : Record) : Entry := { solution := r.solution, hits := r.hits }

end Record

namespace Ledger

def record? (ledger : Ledger) (id : EntryId) : Option Record :=
  (ledger[id]?.filter Entry.live).map fun e => ⟨id, e.solution, e.hits⟩

def records (ledger : Ledger) : List Record := (List.range ledger.size).filterMap ledger.record?

theorem record?_eq_some_iff {ledger : Ledger} {id : EntryId} {r : Record} :
    ledger.record? id = some r ↔ r.id = id ∧ ledger[id]? = some r.entry := by
  obtain ⟨rid, s, n⟩ := r
  simp only [record?, Option.map_eq_some_iff, Option.filter_eq_some_iff, Record.mk.injEq]
  constructor
  · rintro ⟨⟨s', n', live⟩, ⟨he, hl⟩, rfl, rfl, rfl⟩
    cases hl
    exact ⟨rfl, he⟩
  · rintro ⟨rfl, he⟩
    exact ⟨_, ⟨he, rfl⟩, rfl, rfl, rfl⟩

theorem mem_records {ledger : Ledger} {r : Record} :
    r ∈ ledger.records ↔ ledger[r.id]? = some r.entry := by
  rw [records, List.mem_filterMap]
  constructor
  · rintro ⟨id, -, h⟩
    obtain ⟨rfl, he⟩ := record?_eq_some_iff.1 h
    exact he
  · intro h
    obtain ⟨hs, -⟩ := Array.getElem?_eq_some_iff.1 h
    exact ⟨r.id, List.mem_range.2 hs, record?_eq_some_iff.2 ⟨rfl, h⟩⟩

theorem id_lt_size {ledger : Ledger} {r : Record} (h : r ∈ ledger.records) :
    r.id < ledger.size := (Array.getElem?_eq_some_iff.1 (mem_records.1 h)).1

theorem record?_id {ledger : Ledger} {r : Record} (h : r ∈ ledger.records) :
    ledger.record? r.id = some r := record?_eq_some_iff.2 ⟨rfl, mem_records.1 h⟩

/-- A number has one record at most. -/
theorem eq_of_id {ledger : Ledger} {r r' : Record} (h : r ∈ ledger.records)
    (h' : r' ∈ ledger.records) (e : r.id = r'.id) : r = r' := by
  have hr := record?_id h
  rw [e, record?_id h'] at hr
  exact (Option.some.inj hr).symm

theorem id_mem_filter_iff {ledger : Ledger} {r : Record} (h : r ∈ ledger.records)
    (p : Record → Bool) : r.id ∈ (ledger.records.filter p).map Record.id ↔ p r = true := by
  rw [List.mem_map]
  constructor
  · rintro ⟨r', hr', e⟩
    obtain ⟨hr', hp⟩ := List.mem_filter.1 hr'
    rwa [eq_of_id hr' h e] at hp
  · intro hp
    exact ⟨r, List.mem_filter.2 ⟨h, hp⟩, rfl⟩

/-- The records come in the order of their arrival. -/
theorem records_rising (ledger : Ledger) : ledger.records.Pairwise fun r r' => r.id < r'.id := by
  rw [records, List.pairwise_filterMap]
  refine List.pairwise_lt_range.imp fun h r hr r' hr' => ?_
  rw [(record?_eq_some_iff.1 hr).1, (record?_eq_some_iff.1 hr').1]
  exact h

theorem nodup_ids (ledger : Ledger) : (ledger.records.map Record.id).Nodup :=
  List.pairwise_map.2 (ledger.records_rising.imp fun h => Nat.ne_of_lt h)

/-- An entry is live exactly when there is a record of its number. -/
theorem any_live_eq (ledger : Ledger) (id : EntryId) :
    ledger[id]?.any Entry.live = ledger.records.any (·.id = id) := by
  rw [Bool.eq_iff_iff, List.any_eq_true]
  constructor
  · intro h
    obtain ⟨⟨s, n, live⟩, he, hl⟩ := (Option.any_eq_true _ _).1 h
    cases hl
    exact ⟨⟨id, s, n⟩, mem_records.2 he, decide_eq_true rfl⟩
  · rintro ⟨r, hr, h⟩
    obtain rfl := of_decide_eq_true h
    exact (Option.any_eq_true _ _).2 ⟨r.entry, mem_records.1 hr, rfl⟩

/-! ### Changes -/

theorem records_push (ledger : Ledger) (s : Solution) :
    records (ledger.push { solution := s }) = ledger.records ++ [⟨ledger.size, s, 0⟩] := by
  rw [records, Array.size_push, List.range_succ, List.filterMap_append]
  congr 1
  · refine List.filterMap_congr fun id hid => ?_
    rw [record?, Array.getElem?_push_lt (List.mem_range.1 hid), record?,
      Array.getElem?_eq_getElem (List.mem_range.1 hid)]
  · simp [record?]

/-- What happens to each record for itself happens to the list of records. -/
theorem records_eq_filterMap {before after : Ledger} {g : Record → Option Record}
    (hs : after.size = before.size)
    (hg : ∀ id, after.record? id = (before.record? id).bind g) :
    after.records = before.records.filterMap g := by
  rw [records, records, hs, List.filterMap_filterMap]
  exact List.filterMap_congr fun id _ => hg id

theorem records_hit (ledger : Ledger) (id : EntryId) :
    records (ledger.modify id Entry.hit) =
      ledger.records.map fun r => { r with hits := if r.id = id then r.hits + 1 else r.hits } := by
  rw [← List.filterMap_eq_map']
  refine records_eq_filterMap Array.size_modify fun i => ?_
  simp only [record?, Array.getElem?_modify]
  cases ledger[i]? with
  | none => simp
  | some e =>
    obtain ⟨s, n, live⟩ := e
    cases live <;> by_cases h : id = i <;> simp [h, Entry.hit, Option.filter, Ne.symm]

theorem size_foldl_modify (f : Entry → Entry) (ids : List EntryId) (ledger : Ledger) :
    (ids.foldl (fun l id => l.modify id f) ledger).size = ledger.size := by
  induction ids generalizing ledger with
  | nil => rfl
  | cons id ids ih => rw [List.foldl_cons, ih, Array.size_modify]

/-- A change that is done once and for all may be done to an entry more than once. -/
theorem getElem?_foldl_modify {f : Entry → Entry} (hf : ∀ e, f (f e) = f e) (ids : List EntryId)
    (ledger : Ledger) (i : EntryId) :
    (ids.foldl (fun l id => l.modify id f) ledger)[i]? =
      if i ∈ ids then ledger[i]?.map f else ledger[i]? := by
  induction ids generalizing ledger with
  | nil => simp
  | cons id ids ih =>
    rw [List.foldl_cons, ih, Array.getElem?_modify]
    by_cases h : id = i
    · subst h
      have : ∀ o : Option Entry, (o.map f).map f = o.map f := by
        intro o
        cases o <;> simp [hf]
      simp [this]
    · simp [h, Ne.symm h]

/-- A change that is done to different entries is done to each of them once. -/
theorem getElem?_foldl_modify_of_nodup (f : Entry → Entry) {ids : List EntryId} (hn : ids.Nodup)
    (ledger : Ledger) (i : EntryId) :
    (ids.foldl (fun l id => l.modify id f) ledger)[i]? =
      if i ∈ ids then ledger[i]?.map f else ledger[i]? := by
  induction ids generalizing ledger with
  | nil => simp
  | cons id ids ih =>
    obtain ⟨hid, hn⟩ := List.nodup_cons.1 hn
    rw [List.foldl_cons, ih hn, Array.getElem?_modify]
    by_cases h : id = i
    · subst h
      simp [hid]
    · simp [h, Ne.symm h]

theorem records_clear (ids : List EntryId) (ledger : Ledger) :
    records (ids.foldl (fun l id => l.modify id Entry.clear) ledger) =
      ledger.records.map fun r => { r with hits := if r.id ∈ ids then 0 else r.hits } := by
  rw [← List.filterMap_eq_map']
  refine records_eq_filterMap (size_foldl_modify _ ids ledger) fun i => ?_
  rw [record?, record?, getElem?_foldl_modify (f := Entry.clear) fun _ => rfl]
  cases ledger[i]? with
  | none => simp
  | some e =>
    obtain ⟨s, n, live⟩ := e
    cases live <;> by_cases h : i ∈ ids <;> simp [h, Entry.clear, Option.filter]

theorem records_retire (ids : List EntryId) (ledger : Ledger) :
    records (ids.foldl (fun l id => l.modify id Entry.retire) ledger) =
      ledger.records.filter fun r => r.id ∉ ids := by
  rw [← List.filterMap_eq_filter]
  refine records_eq_filterMap (size_foldl_modify _ ids ledger) fun i => ?_
  rw [record?, record?, getElem?_foldl_modify (f := Entry.retire) fun _ => rfl]
  cases ledger[i]? with
  | none => simp
  | some e =>
    obtain ⟨s, n, live⟩ := e
    cases live <;> by_cases h : i ∈ ids <;> simp [h, Entry.retire, Option.filter, Option.guard]

end Ledger

end HashJoin
