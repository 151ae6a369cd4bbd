import HashJoin.Proofs.Finality

/-! Scans that stay open while their index changes. Which entries such a scan will come to is
settled when it is opened: those that are stored then, in the order of the map. What it makes of
an entry is settled only when it comes to it, by the hits that the entry has then, whether or not
it is still stored. So the history of a scan is told by its sights, the entries that it came to
as they read at that moment: what it gave out is read off them, and they and the entries that it
has still to look at are the ones with which it was opened. -/

namespace HashJoin

namespace HitClass

/-- The search for the next solution passes over entries that are not in the class, and it stops
at the first one that is. -/
theorem next?_cases (hitClass : HitClass) (ledger : Ledger) (ids : List EntryId) :
    (hitClass.next? ledger ids = none ∧
      ∀ id ∈ ids, ledger[id]?.any hitClass.includes = false) ∨
    ∃ (skipped : List EntryId) (id : EntryId) (e : Entry) (rest : List EntryId),
      ids = skipped ++ id :: rest ∧ hitClass.next? ledger ids = some (e.solution, rest) ∧
      ledger[id]? = some e ∧ hitClass.includes e = true ∧
      ∀ id ∈ skipped, ledger[id]?.any hitClass.includes = false := by
  induction ids with
  | nil => exact .inl ⟨rfl, fun _ hid => absurd hid List.not_mem_nil⟩
  | cons id ids ih =>
    by_cases hin : ledger[id]?.any hitClass.includes = true
    · obtain ⟨e, he, hc⟩ := (Option.any_eq_true _ _).1 hin
      refine .inr ⟨[], id, e, ids, rfl, ?_, he, hc, fun _ hid => absurd hid List.not_mem_nil⟩
      simp only [next?, he, hc, if_true]
    · rw [Bool.not_eq_true] at hin
      have hskip : hitClass.next? ledger (id :: ids) = hitClass.next? ledger ids := by
        rw [next?]
        cases he : ledger[id]? with
        | none => rfl
        | some e =>
          rw [he, Option.any_some] at hin
          exact if_neg (Bool.eq_false_iff.1 hin)
      rw [hskip]
      rcases ih with ⟨hnone, hall⟩ | ⟨skipped, id', e, rest, rfl, hnext, he, hc, hall⟩
      · exact .inl ⟨hnone, List.forall_mem_cons.2 ⟨hin, hall⟩⟩
      · exact .inr ⟨id :: skipped, id', e, rest, rfl, hnext, he, hc,
          List.forall_mem_cons.2 ⟨hin, hall⟩⟩

theorem solutions_of_not_included {hitClass : HitClass} {ledger : Ledger} {ids : List EntryId}
    (h : ∀ id ∈ ids, ledger[id]?.any hitClass.includes = false) :
    hitClass.solutions ledger ids = [] := by
  refine List.filterMap_eq_nil_iff.2 fun id hid => ?_
  have hid := h id hid
  cases he : ledger[id]? with
  | none => rfl
  | some e =>
    rw [he, Option.any_some] at hid
    rw [Option.filter_some, if_neg (Bool.eq_false_iff.1 hid), Option.map_none]

end HitClass

/-! ### Reading a cursor -/

namespace Cursor

variable {cursor : Cursor} {ledger : Ledger} {looked : List EntryId}

/-- A cursor looks at some of its entries and gives out the solutions of those in its class. -/
structure Reads (cursor : Cursor) (ledger : Ledger) (looked : List EntryId)
    (step : Step Cursor (List Solution)) : Prop where
  owner : step.state.owner = cursor.owner
  hitClass : step.state.hitClass = cursor.hitClass
  remaining : cursor.remaining = looked ++ step.state.remaining
  answer : step.answer = cursor.hitClass.solutions ledger looked
  counters : step.counters = cursor.hitClass.emitting step.answer.length

theorem reads_rest (cursor : Cursor) (ledger : Ledger) :
    cursor.Reads ledger cursor.remaining (cursor.rest ledger) :=
  ⟨rfl, rfl, (List.append_nil _).symm, rfl, rfl⟩

/-- Up to the entry that it gives out, a cursor skips those that are not in its class. -/
theorem next_cases (cursor : Cursor) (ledger : Ledger) :
    (cursor.next ledger = ⟨none, { cursor with remaining := [] }, 0⟩ ∧
      ∀ id ∈ cursor.remaining, ledger[id]?.any cursor.hitClass.includes = false) ∨
    ∃ (skipped : List EntryId) (id : EntryId) (e : Entry) (rest : List EntryId),
      cursor.remaining = skipped ++ id :: rest ∧
      cursor.next ledger =
        ⟨some e.solution, { cursor with remaining := rest }, cursor.hitClass.emitting 1⟩ ∧
      ledger[id]? = some e ∧ cursor.hitClass.includes e = true ∧
      ∀ id ∈ skipped, ledger[id]?.any cursor.hitClass.includes = false := by
  rw [next]
  rcases cursor.hitClass.next?_cases ledger cursor.remaining with
    ⟨hnone, hall⟩ | ⟨skipped, id, e, rest, hids, hnext, he, hc, hall⟩
  · exact .inl ⟨by rw [hnone], hall⟩
  · exact .inr ⟨skipped, id, e, rest, hids, by rw [hnext], he, hc, hall⟩

theorem reads_next (cursor : Cursor) (ledger : Ledger) :
    ∃ looked, cursor.Reads ledger looked ((cursor.next ledger).map id Option.toList) := by
  rcases cursor.next_cases ledger with
    ⟨hnext, hall⟩ | ⟨skipped, id, e, rest, hids, hnext, he, hc, hall⟩
  · refine ⟨cursor.remaining, ?_⟩
    rw [hnext]
    refine ⟨rfl, rfl, (List.append_nil _).symm, (HitClass.solutions_of_not_included hall).symm, ?_⟩
    cases cursor.hitClass <;> rfl
  · refine ⟨skipped ++ [id], ?_⟩
    rw [hnext]
    refine ⟨rfl, rfl, ?_, ?_, rfl⟩
    · rw [hids, List.append_assoc]
      rfl
    · rw [HitClass.solutions_append, HitClass.solutions_of_not_included hall, HitClass.solutions,
        List.nil_append, List.filterMap_cons_some (b := e.solution), List.filterMap_nil]
      · rfl
      · rw [he, Option.filter_some, if_pos hc, Option.map_some]

/-- From `before` to `after` a cursor has come to the entries of `seen`, which read then as they
do there, and has given out `found`. -/
structure Scans (before after : Cursor) (seen : List (EntryId × Entry)) (found : List Solution) :
    Prop where
  owner : after.owner = before.owner
  hitClass : after.hitClass = before.hitClass
  remaining : seen.map Prod.fst ++ after.remaining = before.remaining
  found : found = (seen.filter fun p => before.hitClass.includes p.2).map fun p => p.2.solution

theorem Scans.refl (cursor : Cursor) : cursor.Scans cursor [] [] := ⟨rfl, rfl, rfl, rfl⟩

theorem Scans.trans {after last : Cursor} {seen seen' : List (EntryId × Entry)}
    {found found' : List Solution} (h : cursor.Scans after seen found)
    (h' : after.Scans last seen' found') : cursor.Scans last (seen ++ seen') (found ++ found') where
  owner := h'.owner.trans h.owner
  hitClass := h'.hitClass.trans h.hitClass
  remaining := by rw [List.map_append, List.append_assoc, h'.remaining, h.remaining]
  found := by rw [List.filter_append, List.map_append, h.found, h'.found, h.hitClass]

end Cursor

namespace Op

/-- What the reply to an operation gives out of a cursor. -/
def yields (c : Nat) : Op → Reply → List Solution
  | .next c', .next found _ => if c' = c then found.toList else []
  | .rest c', .solutions found => if c' = c then found else []
  | _, _ => []

/-- What the replies to a list of operations give out of a cursor. -/
def yieldedIn (c : Nat) (ops : List Op) (replies : List Reply) : List Solution :=
  (ops.zip replies).flatMap fun p => p.1.yields c p.2

end Op

namespace Session

variable {specs : List IndexSpec} {s : Session} {c : Nat} {cursor : Cursor}

/-- The entries that a cursor comes to in a step, as they read then. -/
def sights (s : Session) (c : Nat) (op : Op) : List (EntryId × Entry) :=
  match s.cursors[c]?, (s.step op).1.cursors[c]? with
  | some before, some after => s.entries ⟨before.owner,
      before.remaining.take (before.remaining.length - after.remaining.length)⟩
  | _, _ => []

/-- The entries that a cursor comes to in a run, each as it read at that moment. -/
def sightsIn (s : Session) (c : Nat) : List Op → List (EntryId × Entry)
  | [] => []
  | op :: ops => s.sights c op ++ (s.step op).1.sightsIn c ops

/-! ### Reading entries -/

theorem entries_append (s : Session) (owner : Nat) (ids ids' : List EntryId) :
    s.entries ⟨owner, ids ++ ids'⟩ = s.entries ⟨owner, ids⟩ ++ s.entries ⟨owner, ids'⟩ :=
  List.filterMap_append

/-- Entries that are known can all be read. -/
theorem map_fst_entries {b : Snapshot} (h : ∀ id ∈ b.ids, s.Knows ⟨b.owner, id⟩) :
    (s.entries b).map Prod.fst = b.ids := by
  rw [entries, List.map_filterMap]
  refine (List.filterMap_congr fun id hid => ?_).trans List.filterMap_some
  obtain ⟨ix, hix, hlt⟩ := h id hid
  rw [ledger_of_index hix, Array.getElem?_eq_getElem hlt]
  rfl

theorem mem_entries {b : Snapshot} {p : EntryId × Entry} :
    p ∈ s.entries b ↔ p.1 ∈ b.ids ∧ s.entry? ⟨b.owner, p.1⟩ = some p.2 := by
  rw [entries, List.mem_filterMap]
  constructor
  · rintro ⟨id, hid, he⟩
    obtain ⟨e, hledger, rfl⟩ := Option.map_eq_some_iff.1 he
    exact ⟨hid, hledger⟩
  · rintro ⟨hid, he⟩
    exact ⟨p.1, hid, Option.map_eq_some_iff.2 ⟨p.2, he, rfl⟩⟩

/-- To read the solutions of a class is to read the entries and to keep those in the class. -/
theorem solutions_eq_entries (s : Session) (hitClass : HitClass) (b : Snapshot) :
    hitClass.solutions (s.ledger b.owner) b.ids =
      ((s.entries b).filter fun p => hitClass.includes p.2).map fun p => p.2.solution := by
  rw [HitClass.solutions, entries, ← List.filterMap_eq_map', List.filter_filterMap,
    List.filterMap_filterMap]
  refine List.filterMap_congr fun id _ => ?_
  cases (s.ledger b.owner)[id]? with
  | none => rfl
  | some e => cases hc : hitClass.includes e <;> simp [Option.filter, hc]

/-! ### Steps -/

theorem sights_eq {op : Op} {next : Cursor} {looked : List EntryId}
    (hc : s.cursors[c]? = some cursor) (hnext : (s.step op).1.cursors[c]? = some next)
    (hr : cursor.remaining = looked ++ next.remaining) :
    s.sights c op = s.entries ⟨cursor.owner, looked⟩ := by
  have hlen : cursor.remaining.length - next.remaining.length = looked.length := by
    rw [hr, List.length_append, Nat.add_sub_cancel]
  rw [sights, hc, hnext]
  dsimp only
  rw [hlen, hr, List.take_left]

theorem readCursor_eq (hc : s.cursors[c]? = some cursor)
    (read : Cursor → Ledger → Step Cursor Reply) :
    s.readCursor c read = ({ s with
      cursors := s.cursors.set c (read cursor (s.ledger cursor.owner)).state
      counters := s.counters + (read cursor (s.ledger cursor.owner)).counters },
      (read cursor (s.ledger cursor.owner)).answer) := by
  rw [readCursor, hc]

theorem cursors_readCursor_self (hc : s.cursors[c]? = some cursor)
    (read : Cursor → Ledger → Step Cursor Reply) :
    (s.readCursor c read).1.cursors[c]? = some (read cursor (s.ledger cursor.owner)).state := by
  obtain ⟨hlt, -⟩ := List.getElem?_eq_some_iff.1 hc
  rw [readCursor_eq hc]
  exact List.getElem?_set_self hlt

/-- Reading one cursor leaves the others where they are. -/
theorem cursors_readCursor_ne {c' : Nat} (h : c' ≠ c)
    (read : Cursor → Ledger → Step Cursor Reply) :
    (s.readCursor c' read).1.cursors[c]? = s.cursors[c]? := by
  rw [readCursor]
  split
  next => rfl
  next => exact List.getElem?_set_ne h

theorem scans_of_reads {op : Op} {looked : List EntryId} {step : Step Cursor (List Solution)}
    (hc : s.cursors[c]? = some cursor) (hreads : cursor.Reads (s.ledger cursor.owner) looked step)
    (hknown : ∀ id ∈ cursor.remaining, s.Knows ⟨cursor.owner, id⟩)
    (hnext : (s.step op).1.cursors[c]? = some step.state) :
    cursor.Scans step.state (s.sights c op) step.answer := by
  have hlooked : ∀ id ∈ looked, s.Knows ⟨cursor.owner, id⟩ := by
    intro id hid
    exact hknown id (hreads.remaining ▸ List.mem_append_left _ hid)
  rw [sights_eq hc hnext hreads.remaining]
  refine ⟨hreads.owner, hreads.hitClass, ?_, ?_⟩
  · rw [map_fst_entries (b := ⟨cursor.owner, looked⟩) hlooked, ← hreads.remaining]
  · rw [hreads.answer, s.solutions_eq_entries cursor.hitClass ⟨cursor.owner, looked⟩]

theorem scans_of_same {op : Op} (hc : s.cursors[c]? = some cursor)
    (hsame : (s.step op).1.cursors[c]? = s.cursors[c]?) : cursor.Scans cursor (s.sights c op) [] := by
  rw [sights_eq hc (hsame.trans hc) (List.nil_append _).symm]
  exact .refl cursor

/-- What the operations that read a cursor do to it. -/
theorem step_reads (hc : s.cursors[c]? = some cursor) {op : Op} (hop : op ∈ [.next c, .rest c]) :
    ∃ (looked : List EntryId) (step : Step Cursor (List Solution)),
      cursor.Reads (s.ledger cursor.owner) looked step ∧
      (s.step op).1.cursors[c]? = some step.state ∧ op.yields c (s.step op).2 = step.answer ∧
      (s.step op).1.counters = s.counters + step.counters := by
  rcases List.mem_pair.1 hop with rfl | rfl
  · obtain ⟨looked, hreads⟩ := cursor.reads_next (s.ledger cursor.owner)
    refine ⟨looked, _, hreads, cursors_readCursor_self hc _, ?_, ?_⟩
    · rw [step, readCursor_eq hc]
      exact if_pos rfl
    · rw [step, readCursor_eq hc]
      rfl
  · refine ⟨_, _, cursor.reads_rest (s.ledger cursor.owner), cursors_readCursor_self hc _, ?_, ?_⟩
    · rw [step, readCursor_eq hc]
      exact if_pos rfl
    · rw [step, readCursor_eq hc]
      rfl

/-- Any other operation leaves a cursor where it is. -/
theorem step_cursor_same (hc : s.cursors[c]? = some cursor) {op : Op}
    (hop : op ∉ [.next c, .rest c]) :
    (s.step op).1.cursors[c]? = s.cursors[c]? ∧ ∀ reply, op.yields c reply = [] := by
  rw [List.mem_pair, not_or] at hop
  cases op with
  | on place op | openLazy place op =>
    refine ⟨?_, fun _ => rfl⟩
    rw [step]
    split <;> rfl
  | nextLazy c' => exact ⟨by rw [(s.step_nextLazy_same c').2.1], fun _ => rfl⟩
  | openScan place hitClass =>
    refine ⟨?_, fun _ => rfl⟩
    obtain ⟨hlt, -⟩ := List.getElem?_eq_some_iff.1 hc
    rw [step]
    split
    · exact List.getElem?_append_left hlt
    · rfl
  | next c' =>
    have hne : c' ≠ c := fun e => hop.1 (e ▸ rfl)
    refine ⟨cursors_readCursor_ne hne _, fun reply => ?_⟩
    cases reply <;> first | exact if_neg hne | rfl
  | rest c' =>
    have hne : c' ≠ c := fun e => hop.2 (e ▸ rfl)
    refine ⟨cursors_readCursor_ne hne _, fun reply => ?_⟩
    cases reply <;> first | exact if_neg hne | rfl

theorem scans_step (hc : s.cursors[c]? = some cursor)
    (hknown : ∀ id ∈ cursor.remaining, s.Knows ⟨cursor.owner, id⟩) (op : Op) :
    ∃ next, (s.step op).1.cursors[c]? = some next ∧
      cursor.Scans next (s.sights c op) (op.yields c (s.step op).2) := by
  by_cases hop : op ∈ [.next c, .rest c]
  · obtain ⟨looked, step, hreads, hnext, hyields, -⟩ := step_reads hc hop
    rw [hyields]
    exact ⟨_, hnext, scans_of_reads hc hreads hknown hnext⟩
  · obtain ⟨hsame, hyields⟩ := step_cursor_same hc hop
    rw [hyields]
    exact ⟨cursor, hsame.trans hc, scans_of_same hc hsame⟩

theorem not_included_of_mem_entries {hitClass : HitClass} {b : Snapshot}
    (h : ∀ id ∈ b.ids, (s.ledger b.owner)[id]?.any hitClass.includes = false) :
    ∀ p ∈ s.entries b, hitClass.includes p.2 = false := by
  intro p hp
  obtain ⟨hid, he⟩ := mem_entries.1 hp
  have hnot := h p.1 hid
  rwa [show (s.ledger b.owner)[p.1]? = some p.2 from he, Option.any_some] at hnot

/-- Of the entries that it comes to, a call of `next` gives out the first one in the class. -/
theorem next_cases (hc : s.cursors[c]? = some cursor)
    (hknown : ∀ id ∈ cursor.remaining, s.Knows ⟨cursor.owner, id⟩) :
    ∃ skipped, (∀ p ∈ skipped, cursor.hitClass.includes p.2 = false) ∧
      ((skipped.map Prod.fst = cursor.remaining ∧ s.sights c (.next c) = skipped ∧
        (s.step (.next c)).2 = .next none 0) ∨
      ∃ found rest, cursor.hitClass.includes found.2 = true ∧
        (skipped ++ [found]).map Prod.fst ++ rest = cursor.remaining ∧
        s.sights c (.next c) = skipped ++ [found] ∧
        (s.step (.next c)).2 = .next (some found.2.solution) rest.length) := by
  let read (cursor : Cursor) (ledger : Ledger) : Step Cursor Reply :=
    (cursor.next ledger).map id fun found => .next found (cursor.next ledger).state.remaining.length
  have hreply : (s.step (.next c)).2 = (read cursor (s.ledger cursor.owner)).answer :=
    congrArg Prod.snd (readCursor_eq hc read)
  have hafter : (s.step (.next c)).1.cursors[c]? =
      some (read cursor (s.ledger cursor.owner)).state := cursors_readCursor_self hc read
  rcases cursor.next_cases (s.ledger cursor.owner) with
    ⟨hnext, hall⟩ | ⟨skipped, id, e, rest, hids, hnext, he, hin, hall⟩
  · simp only [read, hnext] at hreply hafter
    exact ⟨s.entries ⟨cursor.owner, cursor.remaining⟩, not_included_of_mem_entries hall,
      .inl ⟨map_fst_entries hknown, sights_eq hc hafter (List.append_nil _).symm, hreply⟩⟩
  · simp only [read, hnext] at hreply hafter
    have hids' : cursor.remaining = (skipped ++ [id]) ++ rest := by
      rw [hids, List.append_assoc]
      rfl
    have hknown' : ∀ id' ∈ skipped ++ [id], s.Knows ⟨cursor.owner, id'⟩ := by
      intro id' hid
      exact hknown id' (hids' ▸ List.mem_append_left _ hid)
    have hfound : s.entries ⟨cursor.owner, skipped ++ [id]⟩ =
        s.entries ⟨cursor.owner, skipped⟩ ++ [(id, e)] := by
      rw [entries_append, entries.eq_def s ⟨cursor.owner, [id]⟩,
        List.filterMap_cons_some (b := (id, e)), List.filterMap_nil]
      rw [he, Option.map_some]
    refine ⟨s.entries ⟨cursor.owner, skipped⟩, not_included_of_mem_entries hall,
      .inr ⟨(id, e), rest, hin, ?_, ?_, hreply⟩⟩
    · rw [← hfound, map_fst_entries (b := ⟨cursor.owner, skipped ++ [id]⟩) hknown', hids']
    · rw [← hfound]
      exact sights_eq hc hafter hids'

/-- A call of `rest` comes to all entries ahead. -/
theorem map_fst_sights_rest (hc : s.cursors[c]? = some cursor)
    (hknown : ∀ id ∈ cursor.remaining, s.Knows ⟨cursor.owner, id⟩) :
    (s.sights c (.rest c)).map Prod.fst = cursor.remaining := by
  have hafter : (s.step (.rest c)).1.cursors[c]? = some { cursor with remaining := [] } :=
    cursors_readCursor_self hc fun cursor ledger => (cursor.rest ledger).map id .solutions
  rw [sights_eq hc hafter (List.append_nil _).symm]
  exact map_fst_entries hknown

/-! ### Runs -/

theorem MadeBy.known_of_scans (h : s.MadeBy specs) {op : Op} {next : Cursor}
    {seen : List (EntryId × Entry)} {found : List Solution}
    (hknown : ∀ id ∈ cursor.remaining, s.Knows ⟨cursor.owner, id⟩)
    (hscans : cursor.Scans next seen found) :
    ∀ id ∈ next.remaining, (s.step op).1.Knows ⟨next.owner, id⟩ := by
  intro id hid
  rw [hscans.owner]
  exact h.knows_step op (hknown id (hscans.remaining ▸ List.mem_append_right _ hid))

/-- Whatever is done in a run, a cursor comes to its entries in their order. -/
theorem MadeBy.scans_run (h : s.MadeBy specs) (hc : s.cursors[c]? = some cursor)
    (hknown : ∀ id ∈ cursor.remaining, s.Knows ⟨cursor.owner, id⟩) (ops : List Op) :
    ∃ last, (s.run ops).1.cursors[c]? = some last ∧
      cursor.Scans last (s.sightsIn c ops) (Op.yieldedIn c ops (s.run ops).2) := by
  induction ops generalizing s cursor with
  | nil => exact ⟨cursor, hc, .refl cursor⟩
  | cons op ops ih =>
    obtain ⟨next, hnext, hscans⟩ := scans_step hc hknown op
    obtain ⟨last, hlast, hlater⟩ := ih (h.step op) hnext (h.known_of_scans hknown hscans)
    exact ⟨last, hlast, hscans.trans hlater⟩

/-- An entry that a cursor comes to has the solution that it had at the start. -/
theorem MadeBy.solution_of_mem_sightsIn (h : s.MadeBy specs) (hc : s.cursors[c]? = some cursor)
    (hknown : ∀ id ∈ cursor.remaining, s.Knows ⟨cursor.owner, id⟩) (ops : List Op) :
    ∀ p ∈ s.sightsIn c ops, ∀ e, s.entry? ⟨cursor.owner, p.1⟩ = some e →
      p.2.solution = e.solution := by
  induction ops generalizing s cursor with
  | nil => exact fun _ hp => absurd hp List.not_mem_nil
  | cons op ops ih =>
    intro p hp e he
    obtain ⟨next, hnext, hscans⟩ := scans_step hc hknown op
    rcases List.mem_append.1 hp with hp | hp
    · rw [sights, hc, hnext] at hp
      obtain ⟨-, hread⟩ := mem_entries.1 hp
      rw [Option.some.inj (hread.symm.trans he)]
    · obtain ⟨e', he', hsame, -⟩ := h.precedes_step op cursor.owner p.1 e he
      refine (ih (h.step op) hnext (h.known_of_scans hknown hscans) p hp e' ?_).trans hsame
      rw [hscans.owner]
      exact he'

/-- A cursor that has just been opened has all stored entries ahead, and reads them as they are. -/
theorem MadeBy.opens (h : s.MadeBy specs) {place : Nat} {ix : SharedIndex}
    (hix : s.indices[place]? = some (.shared ix)) (hitClass : HitClass) :
    (s.step (.openScan place hitClass)).1.cursors[s.cursors.length]? =
      some ⟨place, hitClass, ix.core.storedIds⟩ ∧
    ∀ id ∈ ix.core.storedIds, ∃ e, s.entry? ⟨place, id⟩ = some e ∧ e.live = true ∧
      Session.entry? (s.step (.openScan place hitClass)).1 ⟨place, id⟩ = some e ∧
      (s.step (.openScan place hitClass)).1.Knows ⟨place, id⟩ := by
  obtain ⟨spec, -, hmade⟩ := h place _ hix
  have howner : ix.core.owner = place := hmade.owner
  have hstep : (s.step (.openScan place hitClass)).1 =
      { s with cursors := s.cursors ++ [⟨place, hitClass, ix.core.storedIds⟩] } := by
    rw [Session.step, hix, ← howner]
    rfl
  rw [hstep]
  refine ⟨List.getElem?_concat_length, fun id hid => ?_⟩
  obtain ⟨e, he, hlive⟩ := (Option.any_eq_true _ _).1 (hmade.coherent.core.coherent.any_live.2 hid)
  have hread : s.entry? ⟨place, id⟩ = some e := (entry_of_index (e := ⟨place, id⟩) hix).trans he
  obtain ⟨hlt, -⟩ := Array.getElem?_eq_some_iff.1 he
  exact ⟨e, hread, hlive, hread, .shared ix, hix, hlt⟩

/-- A scan that was opened on a shared index, at any later time. It has come, once and in the
order of the map, to those that were stored when it was opened, and has given out the ones that
were in its class when it came to them; each had the solution that it has now. The next call
comes to the first entry ahead that is in the class, or to the end of the scan. Solutions that
are given out as unmatched are counted, others are not. -/
theorem run_scans_open (h : ofSpecs specs = .ok s) (ops : List Op) {place : Nat} {ix : SharedIndex}
    (hix : (s.run ops).1.indices[place]? = some (.shared ix)) (hitClass : HitClass)
    (later : List Op) :
    let before := (s.run ops).1
    let c := before.cursors.length
    let opened := (before.step (.openScan place hitClass)).1
    let now := (opened.run later).1
    let seen := opened.sightsIn c later
    let inClass (p : EntryId × Entry) : Bool := HitClass.ofCount p.2.hits = hitClass
    ix.core.storedIds.Nodup ∧
    (∀ p ∈ seen, ∃ e, before.entry? ⟨place, p.1⟩ = some e ∧ e.live = true ∧
      e.solution = p.2.solution) ∧
    Op.yieldedIn c later (opened.run later).2 = (seen.filter inClass).map (fun p => p.2.solution) ∧
    (∃ ahead, now.cursors[c]? = some ⟨place, hitClass, ahead⟩ ∧
      seen.map Prod.fst ++ ahead = ix.core.storedIds ∧
      (now.sights c (.rest c)).map Prod.fst = ahead ∧
      ∃ skipped, (∀ p ∈ skipped, inClass p = false) ∧
        ((skipped.map Prod.fst = ahead ∧ now.sights c (.next c) = skipped ∧
          (now.step (.next c)).2 = .next none 0) ∨
        ∃ found rest, inClass found = true ∧
          (skipped ++ [found]).map Prod.fst ++ rest = ahead ∧
          now.sights c (.next c) = skipped ++ [found] ∧
          (now.step (.next c)).2 = .next (some found.2.solution) rest.length)) ∧
    ∀ op ∈ [Op.next c, Op.rest c], (now.step op).1.counters = now.counters + { unmatchedEmitted :=
      if hitClass = .unmatched then (op.yields c (now.step op).2).length else 0 } := by
  intro before c opened now seen inClass
  have hbefore := (madeBy_of_ofSpecs h).run ops
  obtain ⟨spec, -, hmade⟩ := hbefore place _ hix
  obtain ⟨hopened, hstored⟩ := hbefore.opens hix hitClass
  have hafter : opened.MadeBy specs := hbefore.step _
  have hknown : ∀ id ∈ ix.core.storedIds, opened.Knows ⟨place, id⟩ := by
    intro id hid
    obtain ⟨e, -, -, -, hknows⟩ := hstored id hid
    exact hknows
  obtain ⟨⟨owner, hitClass', ahead⟩, hnow, hscans⟩ := hafter.scans_run hopened hknown later
  obtain rfl : owner = place := hscans.owner
  obtain rfl : hitClass' = hitClass := hscans.hitClass
  have hids : seen.map Prod.fst ++ ahead = ix.core.storedIds := hscans.remaining
  have hahead : ∀ id ∈ ahead, now.Knows ⟨owner, id⟩ := by
    intro id hid
    exact hafter.knows_run later (hknown id (hids ▸ List.mem_append_right _ hid))
  refine ⟨hmade.coherent.core.coherent.wellFormed.nodup, fun p hp => ?_, ?_,
    ⟨ahead, hnow, hids, ?_, ?_⟩, fun op hop => ?_⟩
  · have hid : p.1 ∈ ix.core.storedIds :=
      hids ▸ List.mem_append_left _ (List.mem_map_of_mem hp)
    obtain ⟨e, hread, hlive, hopen, -⟩ := hstored p.1 hid
    exact ⟨e, hread, hlive, (hafter.solution_of_mem_sightsIn hopened hknown later p hp e hopen).symm⟩
  · simpa only [HitClass.includes_eq] using hscans.found
  · exact map_fst_sights_rest hnow hahead
  · simpa only [HitClass.includes_eq] using next_cases hnow hahead
  · obtain ⟨looked, step, hreads, -, hyields, hcounters⟩ := step_reads hnow hop
    rw [hcounters, hyields, hreads.counters]
    cases hitClass' <;> rfl

/-- Between two calls entries are matched, cleared, consumed and removed, and equal ones come in.
The consumed entry is passed over though the hits were cleared after it had gone, the removed one
is given out, and of the new ones the scan knows nothing. -/
theorem run_scans_open_turnover :
    let s := Solution.ofBindings [(⟨"x"⟩, .integer 1)]
    let t := Solution.ofBindings [(⟨"x"⟩, .integer 2)]
    let u := Solution.ofBindings [(⟨"x"⟩, .integer 3)]
    let k := Key.ofSlots [some (.integer 3)]
    let source := ConfigSource.ofSettings [.vars [⟨"x"⟩]]
    let specs : List IndexSpec := [⟨false, source, none⟩, ⟨true, source, some (.empty .arrival)⟩]
    let ops : List Op := [.on 0 (.insert s), .on 1 (.insertAll [s, t, s, u, u])]
    let later : List Op := [.next 0, .on 1 (.mark ⟨1, 2⟩), .on 1 (.consume .semi t),
      .on 1 (.insert t), .on 1 .clearHits, .next 0, .on 1 (.remove k ⟨1, 3⟩), .on 1 (.insert u),
      .next 0, .on 1 (.join .optional u)]
    ∃ start ix, ofSpecs specs = .ok start ∧
      (start.run ops).1.indices[1]? = some (.shared ix) ∧
      let opened := ((start.run ops).1.step (.openScan 1 .unmatched)).1
      let now := (opened.run later).1
      Op.yieldedIn 0 later (opened.run later).2 = [s, s, u] ∧
      (opened.sightsIn 0 later).map Prod.fst ++ [4] = ix.core.storedIds ∧
      (now.step (.next 0)).2 = .next none 0 ∧
      (now.step (.next 0)).1.counters = now.counters := by
  intro s t u k source specs ops later
  have hmade : ∃ start ix, ofSpecs specs = .ok start ∧
      (start.run ops).1.indices[1]? = some (.shared ix) ∧
      (start.run ops).1.cursors.length = 0 ∧
      let opened := ((start.run ops).1.step (.openScan 1 .unmatched)).1
      let now := (opened.run later).1
      opened.sightsIn 0 later = [(0, ⟨s, 0, true⟩), (2, ⟨s, 0, true⟩), (1, ⟨t, 1, false⟩),
        (3, ⟨u, 0, false⟩)] ∧
      now.cursors[0]? = some ⟨1, .unmatched, [4]⟩ ∧ (now.step (.next 0)).2 = .next none 0 := by
    subst later ops specs source k u t s
    exact ⟨_, _, rfl, rfl, rfl, by decide +kernel⟩
  obtain ⟨start, ix, h, hix, hc, hseen, hcursor, hnone⟩ := hmade
  have hscans := run_scans_open h ops hix .unmatched later
  simp only [hc] at hscans
  obtain ⟨-, -, hyielded, ⟨ahead, hnow, hids, -⟩, hcounters⟩ := hscans
  obtain rfl : ahead = [4] := congrArg Cursor.remaining (Option.some.inj (hnow.symm.trans hcursor))
  refine ⟨start, ix, h, hix, ?_, hids, hnone, ?_⟩
  · rw [hyielded, hseen]
    rfl
  · rw [hcounters (.next 0) List.mem_cons_self, hnone]
    exact Counters.add_zero _

end Session

end HashJoin
