import HashJoin.Proofs.HitHistory
import HashJoin.Proofs.Removal

/-! Removal is final. A removed entry stays in the ledger, and callers may still hold its
handle, have it in a bucket that they were given, or stand before it with a cursor. But no
operation touches it again: it reads as it did when it was removed. The index takes no more
notice of it, so that each reply is the one that it would give had the entry never been, and
its number is not given to another entry, even if the same solution comes again. -/

namespace HashJoin

/-- There is no record of an entry that is not live. -/
theorem Ledger.id_ne_of_dead {ledger : Ledger} {id : EntryId} {entry : Entry}
    (he : ledger[id]? = some entry) (hdead : entry.live = false) :
    ∀ r ∈ ledger.records, r.id ≠ id := by
  rintro r hr rfl
  obtain rfl := Option.some.inj ((mem_records.1 hr).symm.trans he)
  contradiction

namespace IndexOp

/-- How an operation leaves the entries that it takes out. Those that are consumed were matched. -/
def leave : IndexOp → Entry → Entry
  | .consume .. => fun e => e.hit.retire
  | _ => Entry.retire

theorem live_leave (op : IndexOp) (e : Entry) : (op.leave e).live = false := by
  cases op <;> rfl

end IndexOp

namespace SharedIndex

variable {ix : SharedIndex}

/-- The entries that an operation takes out. -/
def removed (ix : SharedIndex) : IndexOp → List EntryId
  | .remove k e => if (ix.remove k e).answer then [e.id] else []
  | .removeBucket k => (ix.removeBucket k).answer.getD []
  | .consume op probe => ix.core.matched op probe
  | .insert _ | .insertAll _ | .insertNew _ | .keying _ | .lookup _ | .probe _ | .mark _ | .clearHits
  | .scan .. | .summary | .config | .join .. | .unshare | .buckets => []

theorem Coherent.changes_removed (h : ix.Coherent) {op : IndexOp} (hop : ix.removed op ≠ []) :
    ix.core.ledger.Changes op.leave (ix.removed op) (ix.perform op).state.core.ledger := by
  have hc := h.core.coherent
  cases op with
  | remove k e => exact hc.changes_remove k e
  | removeBucket k => exact hc.changes_removeBucket k
  | consume op probe =>
    rw [h.eq_ofIndex]
    exact hc.changes_consume op probe
  | insert s | insertAll solutions | insertNew s | keying s | lookup k | probe s | mark e
    | clearHits | scan c limit | summary | config | join op probe | unshare | buckets =>
    exact absurd rfl hop

end SharedIndex

namespace AnyIndex

variable {ix : AnyIndex}

def removed : AnyIndex → IndexOp → List EntryId
  | base _, _ => []
  | shared ix, op => ix.removed op

theorem Coherent.changes_removed (h : ix.Coherent) {op : IndexOp} (hop : ix.removed op ≠ []) :
    ix.core.ledger.Changes op.leave (ix.removed op) (ix.perform op).state.core.ledger := by
  cases ix with
  | base ix => exact absurd rfl hop
  | shared ix =>
    have hne : op ≠ .unshare := by
      rintro rfl
      exact hop rfl
    rw [perform_shared ix hne]
    exact SharedIndex.Coherent.changes_removed h hop

theorem Coherent.refuses (h : ix.Coherent) {e : Handle} {entry : Entry}
    (he : ix.core.ledger[e.id]? = some entry) (hdead : entry.live = false) :
    ix.perform (.mark e) = ⟨.flag false, ix, 0⟩ ∧
      ∀ k, ix.perform (.remove k e) = ⟨ix.unremoved, ix, 0⟩ := by
  refine ⟨perform_mark_refused ?_, fun k => perform_remove_refused ?_⟩
  · rw [Index.mark_answer, Bool.eq_false_iff, ne_eq, Index.isLive_iff, he, Option.any_some, hdead]
    exact fun hlive => nomatch hlive.2
  · rw [Bool.eq_false_iff, ne_eq, h.core.coherent.remove_answer, he]
    rintro ⟨-, entry', he', hlive, -⟩
    obtain rfl := Option.some.inj he'
    rw [hdead] at hlive
    contradiction

end AnyIndex

namespace Session

variable {specs : List IndexSpec} {s : Session} {e : Handle}

/-- The entries that an operation takes out. -/
def removed (s : Session) : Op → List Handle
  | .on place op => match s.indices[place]? with
    | some ix => (ix.removed op).map ix.core.handle
    | none => []
  | .openScan .. | .next _ | .rest _ | .openLazy .. | .nextLazy _ => []

/-! ### Later operations -/

theorem MadeBy.precedes_step (h : s.MadeBy specs) (op : Op) (place : Nat) :
    (s.ledger place).Precedes ((s.step op).1.ledger place) := by
  rcases s.step_at op place with ⟨-, hsame⟩ | ⟨ix, indexOp, -, hix, hnext⟩
  · rw [ledger, ledger, hsame]
    exact .refl _
  · obtain ⟨spec, -, hmade⟩ := h place ix hix
    rw [ledger_of_index hix, ledger_of_index hnext]
    exact (hmade.coherent.becomes_perform indexOp).ledger

theorem MadeBy.precedes_run (h : s.MadeBy specs) (ops : List Op) (place : Nat) :
    (s.ledger place).Precedes ((s.run ops).1.ledger place) := by
  induction ops generalizing s with
  | nil => exact .refl _
  | cons op ops ih => exact (h.precedes_step op place).trans (ih (h.step op))

/-- An entry that was removed reads as it did. -/
theorem MadeBy.entry?_run (h : s.MadeBy specs) {entry : Entry} (he : s.entry? e = some entry)
    (hdead : entry.live = false) (ops : List Op) : Session.entry? (s.run ops).1 e = some entry := by
  obtain ⟨entry', he', -, hsame⟩ := h.precedes_run ops e.owner e.id entry he
  rw [← hsame hdead]
  exact he'

/-- What is taken out was live, and is left behind as the operation leaves it. -/
theorem MadeBy.entry?_removed (h : s.MadeBy specs) {op : Op} (he : e ∈ s.removed op) :
    ∃ indexOp entry, op = .on e.owner indexOp ∧ s.entry? e = some entry ∧ entry.live = true ∧
      Session.entry? (s.step op).1 e = some (indexOp.leave entry) := by
  cases op with
  | openScan place c | next c | rest c | openLazy place c | nextLazy c =>
    exact absurd he List.not_mem_nil
  | on place indexOp =>
    rw [removed] at he
    split at he
    next ix hix =>
      obtain ⟨id, hid, rfl⟩ := List.mem_map.1 he
      obtain ⟨spec, -, hmade⟩ := h place _ hix
      obtain rfl : ix.core.owner = place := hmade.owner
      have hchanges := hmade.coherent.changes_removed (List.ne_nil_of_mem hid)
      obtain ⟨entry, hbefore, hlive, hafter⟩ := hchanges.entry_of_mem hid
      refine ⟨indexOp, entry, rfl, ?_, hlive, ?_⟩
      · exact (entry_of_index (e := ix.core.handle id) hix).trans hbefore
      · exact (entry_of_index (e := ix.core.handle id) (step_on_index hix indexOp)).trans hafter
    next => exact absurd he List.not_mem_nil

/-! ### A removed entry cannot be reached -/

/-- The session takes no notice of an entry. -/
structure Forgets (s : Session) (e : Handle) : Prop where
  /-- No reply hands it out, and no new entry is given its number. -/
  handles : ∀ op, e ∉ (s.step op).2.handles
  mark : ∀ (place : Nat) (ix : AnyIndex), s.indices[place]? = some ix →
    s.step (.on place (.mark e)) = (s, .flag false)
  remove : ∀ (place : Nat) (ix : AnyIndex) (k : Key), s.indices[place]? = some ix →
    s.step (.on place (.remove k e)) = (s, ix.unremoved)
  /-- A scan that is opened now does not come to it. -/
  cursor : ∀ (place : Nat) (hitClass : HitClass),
    ∀ cursor ∈ (s.step (.openScan place hitClass)).1.cursors.drop s.cursors.length,
      cursor.owner = e.owner → e.id ∉ cursor.remaining
  lazyScan : ∀ (place : Nat) (hitClass : HitClass),
    ∀ found ∈ (s.step (.openLazy place hitClass)).1.lazyScans.drop s.lazyScans.length,
      found.place = e.owner → e.id ∉ found.scan.remaining
  /-- Whatever is asked of its index, the reply is read off a list of entries in which it is not;
  nor is the next entry that comes into the list given its number. -/
  reply : ∀ ix : AnyIndex, s.indices[e.owner]? = some ix → ∃ l : Log,
    (∀ r ∈ l.records, r.id ≠ e.id) ∧ e.id < l.next ∧
    ∀ op, l.Allows ix.isShared op (s.step (.on e.owner op)).2

section Dead

variable {entry : Entry} (h : s.MadeBy specs) (he : s.entry? e = some entry)
  (hdead : entry.live = false)
include h he hdead

theorem MadeBy.not_mem_handles (op : Op) : e ∉ (s.step op).2.handles := by
  intro hmem
  rcases s.step_cases op with ⟨-, -, hnone⟩ | ⟨place, ix, indexOp, -, hix, -, hanswer⟩
  · rw [hnone] at hmem
    exact absurd hmem List.not_mem_nil
  · obtain ⟨spec, -, hmade⟩ := h place ix hix
    obtain ⟨-, hallows, -⟩ := AnyIndex.Follows.perform hmade.coherent indexOp
    obtain rfl : ix.core.owner = place := hmade.owner
    rw [hanswer] at hmem
    rcases Log.handles_of_allows hallows e hmem with ⟨howner, r, hr, hid⟩ | ⟨rfl, -⟩
    · have hplace : ix.core.owner = e.owner := howner.symm
      rw [entry_of_index (hplace ▸ hix)] at he
      exact Ledger.id_ne_of_dead he hdead r hr hid
    · -- the number of the next entry is that of no entry
      rw [entry_of_index hix] at he
      obtain ⟨hlt, -⟩ := Array.getElem?_eq_some_iff.1 he
      exact Nat.lt_irrefl _ hlt

theorem MadeBy.refuses {place : Nat} {ix : AnyIndex} (hix : s.indices[place]? = some ix) :
    s.step (.on place (.mark e)) = (s, .flag false) ∧
      ∀ k, s.step (.on place (.remove k e)) = (s, ix.unremoved) := by
  by_cases howner : e.owner = place
  · subst howner
    obtain ⟨spec, -, hmade⟩ := h e.owner ix hix
    rw [entry_of_index hix] at he
    obtain ⟨hmark, hremove⟩ := hmade.coherent.refuses he hdead
    exact ⟨step_on_eq hix hmark, fun k => step_on_eq hix (hremove k)⟩
  · exact ⟨h.step_mark_foreign hix howner, h.step_remove_foreign hix howner⟩

theorem MadeBy.not_mem_storedIds {ix : AnyIndex} (hix : s.indices[e.owner]? = some ix) :
    e.id ∉ ix.core.storedIds := by
  intro hid
  obtain ⟨spec, -, hmade⟩ := h e.owner ix hix
  have hlive := hmade.coherent.core.coherent.any_live.2 hid
  rw [← entry_of_index hix, he, Option.any_some, hdead] at hlive
  contradiction

theorem MadeBy.not_mem_cursor {place : Nat} {hitClass : HitClass} {cursor : Cursor}
    (hc : cursor ∈ (s.step (.openScan place hitClass)).1.cursors.drop s.cursors.length)
    (howner : cursor.owner = e.owner) : e.id ∉ cursor.remaining := by
  rw [Session.step] at hc
  split at hc
  next ix hix =>
    rw [List.drop_left, List.mem_singleton] at hc
    subst hc
    obtain ⟨spec, -, hmade⟩ := h place _ hix
    obtain rfl : e.owner = place := howner.symm.trans hmade.owner
    exact h.not_mem_storedIds he hdead hix
  next =>
    rw [List.drop_length] at hc
    exact absurd hc List.not_mem_nil

theorem MadeBy.not_mem_lazyScan {place : Nat} {hitClass : HitClass} {found : PlacedScan}
    (hf : found ∈ (s.step (.openLazy place hitClass)).1.lazyScans.drop s.lazyScans.length)
    (howner : found.place = e.owner) : e.id ∉ found.scan.remaining := by
  rw [Session.step] at hf
  split at hf
  next ix hix =>
    rw [List.drop_left, List.mem_singleton] at hf
    subst hf
    obtain rfl : e.owner = place := howner.symm
    rw [Index.remaining_lazyScan]
    exact h.not_mem_storedIds he hdead hix
  next =>
    rw [List.drop_length] at hf
    exact absurd hf List.not_mem_nil

theorem MadeBy.forgets : s.Forgets e where
  handles := h.not_mem_handles he hdead
  mark _ _ hix := (h.refuses he hdead hix).1
  remove _ _ k hix := (h.refuses he hdead hix).2 k
  cursor _ _ _ hc howner := h.not_mem_cursor he hdead hc howner
  lazyScan _ _ _ hf howner := h.not_mem_lazyScan he hdead hf howner
  reply ix hix := by
    obtain ⟨spec, -, hmade⟩ := h e.owner ix hix
    rw [entry_of_index hix] at he
    obtain ⟨hlt, -⟩ := Array.getElem?_eq_some_iff.1 he
    refine ⟨ix.core.log, Ledger.id_ne_of_dead he hdead, hlt, fun op => ?_⟩
    rw [step_on_reply hix]
    exact (AnyIndex.Follows.perform hmade.coherent op).2.1

end Dead

/-- An entry that an operation takes out was live until then and is not live any more; whatever
is done later, to any index, it reads as it did then, and the session takes no notice of it. -/
theorem run_forgets (h : ofSpecs specs = .ok s) (ops : List Op) (op : Op)
    (he : e ∈ (s.run ops).1.removed op) (later : List Op) :
    let before := (s.run ops).1
    let after := (before.step op).1
    let last := (after.run later).1
    (∃ indexOp entry, op = .on e.owner indexOp ∧ before.entry? e = some entry ∧
      entry.live = true ∧ after.entry? e = some (indexOp.leave entry)) ∧
    (∃ entry, entry.live = false ∧ after.entry? e = some entry ∧ last.entry? e = some entry) ∧
    last.Forgets e := by
  intro before after last
  have hbefore := (madeBy_of_ofSpecs h).run ops
  have hafter := hbefore.step op
  obtain ⟨indexOp, entry, hop, hread, hlive, hleft⟩ := hbefore.entry?_removed he
  have hdead := indexOp.live_leave entry
  have hlast := hafter.entry?_run hleft hdead later
  exact ⟨⟨indexOp, entry, hop, hread, hlive, hleft⟩, ⟨_, hdead, hleft, hlast⟩,
    (hafter.run later).forgets hlast hdead⟩

/-- A consumed entry is offered again and again, to its own index and to another one, after an
equal solution has come in under its key. The hits are cleared and a scan is opened, but the
entry reads as the probe left it. -/
theorem run_forgets_reinserted :
    let s := Solution.ofBindings [(⟨"x"⟩, .integer 1)]
    let t := Solution.ofBindings [(⟨"x"⟩, .integer 2)]
    let k := Key.ofSlots [some (.integer 1)]
    let source := ConfigSource.ofSettings [.vars [⟨"x"⟩]]
    let specs : List IndexSpec := [⟨false, source, none⟩, ⟨true, source, some (.empty .arrival)⟩]
    let ops : List Op := [.on 0 (.insert s), .on 1 (.insertAll [s, t, s]), .on 1 (.mark ⟨1, 0⟩)]
    let op : Op := .on 1 (.consume .inner s)
    let later : List Op := [.on 1 (.insertNew s), .on 1 (.mark ⟨1, 0⟩), .on 0 (.mark ⟨1, 0⟩),
      .on 1 (.remove k ⟨1, 0⟩), .on 1 .clearHits, .openScan 1 .matched, .on 1 (.removeBucket k)]
    ∃ start, ofSpecs specs = .ok start ∧
      let before := (start.run ops).1
      let last := ((before.step op).1.run later).1
      ⟨1, 0⟩ ∈ before.removed op ∧
      last.entry? ⟨1, 0⟩ = some { solution := s, hits := 2, live := false } ∧
      last.Forgets ⟨1, 0⟩ := by
  intro s t k source specs ops op later
  have hmade : ∃ start, ofSpecs specs = .ok start ∧
      ⟨1, 0⟩ ∈ (start.run ops).1.removed op ∧
      Session.entry? ((start.run ops).1.step op).1 ⟨1, 0⟩ =
        some { solution := s, hits := 2, live := false } := by
    subst later op ops specs source k t s
    exact ⟨_, rfl, by decide +kernel⟩
  obtain ⟨start, h, he, hleft⟩ := hmade
  obtain ⟨-, ⟨entry, -, hafter, hlast⟩, hforgets⟩ := run_forgets h ops op he later
  obtain rfl := Option.some.inj (hafter.symm.trans hleft)
  exact ⟨start, h, he, hlast, hforgets⟩

end Session

end HashJoin
