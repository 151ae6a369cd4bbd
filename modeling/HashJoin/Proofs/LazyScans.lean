import HashJoin.Proofs.Finality
import HashJoin.Proofs.Probing
import HashJoin.Proofs.ScanCalls

/-! Lazy scans among the other operations of a session. An index that nobody shares is scanned
where it stands: a lazy scan goes through its buckets, and meanwhile the index is looked up, probed
and marked. None of this touches the buckets, so as long as no entry comes in the scan has the same
entries before it; what it makes of one is settled by the hits that the entry has when the scan
comes to it. In a session a lazy scan is therefore what it is by itself, calls one after the other,
each on the ledger that the index has by then. -/

namespace HashJoin

namespace Index

variable {ix ix' ix'' : Index}

/-- From one state of an index to another, entries came in or the buckets stayed as they were. -/
structure Fills (before after : Index) : Prop where
  size_le : before.ledger.size ≤ after.ledger.size
  buckets : after.ledger.size = before.ledger.size → after.buckets = before.buckets

theorem Fills.refl (ix : Index) : ix.Fills ix := ⟨Nat.le_refl _, fun _ => rfl⟩

theorem Fills.trans (h : ix.Fills ix') (h' : ix'.Fills ix'') : ix.Fills ix'' where
  size_le := Nat.le_trans h.size_le h'.size_le
  buckets hsize := by
    have := h.size_le
    have := h'.size_le
    rw [h'.buckets (by omega), h.buckets (by omega)]

theorem Fills.append (h : ix.Fills ix') (k : Key) (s : Solution) : ix.Fills (ix'.append k s) := by
  have hsize : (ix'.append k s).ledger.size = ix'.ledger.size + 1 := Array.size_push _
  have := h.size_le
  exact ⟨by omega, fun _ => by omega⟩

theorem Becomes.fills (h : ix.Becomes ix') (hb : ix'.buckets = ix.buckets) : ix.Fills ix' :=
  ⟨h.ledger.size_le, fun _ => hb⟩

/-- An index that is not shared takes entries in and lets none go. -/
theorem Coherent.fills_perform (h : ix.Coherent) (op : IndexOp) :
    ix.Fills (ix.perform op).state := by
  cases op with
  | insert s => exact insertKeyed_keeps Fills.append (.refl ix) s _
  | insertAll solutions => exact foldl_addKeyed_keeps Fills.append (.refl ix) {} _
  | insertNew s => exact insertNewKeyed_keeps Fills.append (.refl ix) s _
  | mark e =>
    have hb : (ix.mark e).state.buckets = ix.buckets := by rw [mark_frame]
    exact (ix.becomes_mark e).fills hb
  | clearHits => exact h.becomes_clearHits.fills rfl
  | probe s =>
    change ix.Fills (ix.probe s).state
    rw [probe_state]
    exact .refl ix
  | join op probe =>
    have hb : (ix.join op probe).state.buckets = ix.buckets := by rw [join_frame]
    exact (h.becomes_perform (.join op probe)).fills hb
  | keying s | lookup k | scan c limit | summary | config | unshare | buckets | remove k e
    | removeBucket k | consume op probe => exact .refl ix

end Index

namespace Session

variable {specs : List IndexSpec} {s : Session} {c : Nat} {found : PlacedScan}

/-- The ledgers that the calls of a lazy scan read in a run, each as it was at that moment. -/
def ledgersRead (s : Session) (place c : Nat) : List Op → List Ledger
  | [] => []
  | op :: ops =>
    let later := (s.step op).1.ledgersRead place c ops
    if op = .nextLazy c then s.ledger place :: later else later

/-! ### Steps -/

theorem step_nextLazy (hc : s.lazyScans[c]? = some found)
    (hsize : (s.ledger found.place).size = found.made) :
    let call := found.scan.next (s.ledger found.place)
    s.step (.nextLazy c) = ({ s with
      lazyScans := s.lazyScans.set c { found with scan := call.state }
      counters := s.counters + call.counters }, .solutions call.answer.toList) := by
  rw [step, hc]
  exact if_pos hsize

theorem step_nextLazy_over (hc : s.lazyScans[c]? = some found)
    (hsize : (s.ledger found.place).size ≠ found.made) :
    s.step (.nextLazy c) = (s, .unavailable) := by
  rw [step, hc]
  exact if_neg hsize

/-- A call that is made takes the scan on. -/
theorem lazyScan_nextLazy (hc : s.lazyScans[c]? = some found)
    (hsize : (s.ledger found.place).size = found.made) :
    (s.step (.nextLazy c)).1.lazyScans[c]? =
      some { found with scan := (found.scan.next (s.ledger found.place)).state } := by
  obtain ⟨hlt, -⟩ := List.getElem?_eq_some_iff.1 hc
  rw [step_nextLazy hc hsize]
  exact List.getElem?_set_self hlt

/-- It gives the first entry ahead that is in the class, as hits are now. -/
theorem nextLazy_gives (hc : s.lazyScans[c]? = some found)
    (hsize : (s.ledger found.place).size = found.made) :
    let first := (found.scan.pending (s.ledger found.place)).head?
    (s.step (.nextLazy c)).2 = .solutions first.toList ∧
    (s.step (.nextLazy c)).1.counters = s.counters + { unmatchedEmitted :=
      if found.scan.hitClass = .unmatched then first.toList.length else 0 } := by
  intro first
  have hfirst : (found.scan.next (s.ledger found.place)).answer = first :=
    (found.scan.next_takes _).1
  rw [step_nextLazy hc hsize, found.scan.counters_next, HitClass.emitting_eq, hfirst]
  exact ⟨rfl, rfl⟩

/-- Any other operation leaves it where it is. -/
theorem lazyScan_step_same (hc : s.lazyScans[c]? = some found) {op : Op}
    (hop : op ≠ .nextLazy c) : (s.step op).1.lazyScans[c]? = some found := by
  obtain ⟨hlt, -⟩ := List.getElem?_eq_some_iff.1 hc
  cases op with
  | on place op | openScan place hitClass =>
    rw [step]
    split <;> exact hc
  | next c' | rest c' =>
    rw [step, readCursor]
    split <;> exact hc
  | openLazy place hitClass =>
    rw [step]
    split
    · exact (List.getElem?_append_left hlt).trans hc
    · exact hc
  | nextLazy c' =>
    have hne : c' ≠ c := fun e => hop (e ▸ rfl)
    rw [step]
    split
    next => exact hc
    next other _ =>
      rw [readLazy]
      dsimp only
      split
      · exact (List.getElem?_set_ne hne).trans hc
      · exact hc

theorem lazyScan_step (hc : s.lazyScans[c]? = some found) (op : Op) :
    ∃ scan, (s.step op).1.lazyScans[c]? = some { found with scan } := by
  by_cases hop : op = .nextLazy c
  · subst hop
    by_cases hsize : (s.ledger found.place).size = found.made
    · exact ⟨_, lazyScan_nextLazy hc hsize⟩
    · exact ⟨found.scan, by rw [step_nextLazy_over hc hsize]; exact hc⟩
  · exact ⟨found.scan, lazyScan_step_same hc hop⟩

theorem MadeBy.fills_step (h : s.MadeBy specs) {place : Nat} {ix : Index}
    (hix : s.indices[place]? = some (.base ix)) (op : Op) :
    ∃ ix', (s.step op).1.indices[place]? = some (.base ix') ∧ ix.Fills ix' := by
  rcases s.step_at op place with ⟨-, hsame⟩ | ⟨other, indexOp, -, hother, hnext⟩
  · exact ⟨ix, hsame.trans hix, .refl ix⟩
  · obtain rfl := Option.some.inj (hother.symm.trans hix)
    obtain ⟨spec, -, hmade⟩ := h place _ hix
    exact ⟨_, hnext, hmade.coherent.core.coherent.fills_perform indexOp⟩

/-! ### Runs -/

theorem MadeBy.fills_run (h : s.MadeBy specs) {place : Nat} {ix : Index}
    (hix : s.indices[place]? = some (.base ix)) (ops : List Op) :
    ∃ ix', (s.run ops).1.indices[place]? = some (.base ix') ∧ ix.Fills ix' := by
  induction ops generalizing s ix with
  | nil => exact ⟨ix, hix, .refl ix⟩
  | cons op ops ih =>
    obtain ⟨next, hnext, hfills⟩ := h.fills_step hix op
    obtain ⟨last, hlast, hlater⟩ := ih (h.step op) hnext
    exact ⟨last, hlast, hfills.trans hlater⟩

theorem lazyScan_run (hc : s.lazyScans[c]? = some found) (ops : List Op) :
    ∃ scan, (s.run ops).1.lazyScans[c]? = some { found with scan } := by
  induction ops generalizing s found with
  | nil => exact ⟨found.scan, hc⟩
  | cons op ops ih =>
    obtain ⟨scan, hnext⟩ := lazyScan_step hc op
    obtain ⟨last, hlast⟩ := ih hnext
    exact ⟨last, hlast⟩

/-- As long as no entry comes in, a lazy scan makes its calls as if there were nothing else. -/
theorem MadeBy.calls_run (h : s.MadeBy specs) (hc : s.lazyScans[c]? = some found)
    (hlow : found.made ≤ (s.ledger found.place).size) (ops : List Op)
    (hlast : ((s.run ops).1.ledger found.place).size = found.made) :
    let called := found.scan.calls (s.ledgersRead found.place c ops)
    (s.run ops).1.lazyScans[c]? = some { found with scan := called.state } ∧
    Op.repliesTo (· = .nextLazy c) ops (s.run ops).2 =
      called.answer.map fun answer => .solutions answer.toList := by
  induction ops generalizing s found with
  | nil => exact ⟨hc, rfl⟩
  | cons op ops ih =>
    have hnext := (h.precedes_step op found.place).size_le
    have hlater := ((h.step op).precedes_run ops found.place).size_le
    have hlast : (((s.step op).1.run ops).1.ledger found.place).size = found.made := hlast
    -- the ledger only grows, so it has the same size all along
    have hsize : (s.ledger found.place).size = found.made := by omega
    have hlow' : found.made ≤ ((s.step op).1.ledger found.place).size := by omega
    rw [run_cons, Op.repliesTo_cons, ledgersRead]
    by_cases hop : op = .nextLazy c
    · subst hop
      obtain ⟨hstate, hreplies⟩ := ih (h.step _) (lazyScan_nextLazy hc hsize) hlow' hlast
      rw [if_pos rfl, if_pos (decide_eq_true rfl), LazyScan.calls_cons]
      refine ⟨hstate, ?_⟩
      rw [hreplies, step_nextLazy hc hsize]
      rfl
    · rw [if_neg hop, if_neg (Bool.eq_false_iff.1 (decide_eq_false hop))]
      exact ih (h.step op) (lazyScan_step_same hc hop) hlow' hlast

/-- A lazy scan that was opened on an index which is not shared, at any later time. If no entry
came in, the index has the buckets of that time, and the calls of the scan were those of a scan by
itself, each on the ledger that it found: they shared out the entries stored, in the order of the
map, and each gave the one of its share that was then in the class. The next call gives the first
entry ahead that is in the class now, if there is one, and counts it when it is not matched. If an
entry came in, the scan is over. -/
theorem run_scans_lazily (h : ofSpecs specs = .ok s) (ops : List Op) {place : Nat} {ix : Index}
    (hix : (s.run ops).1.indices[place]? = some (.base ix)) (hitClass : HitClass)
    (later : List Op) :
    let before := (s.run ops).1
    let c := before.lazyScans.length
    let opened := (before.step (.openLazy place hitClass)).1
    let now := (opened.run later).1
    let ledgers := opened.ledgersRead place c later
    let called := (ix.lazyScan hitClass).calls ledgers
    ∃ ix', now.indices[place]? = some (.base ix') ∧
      (ix'.ledger.size = ix.ledger.size →
        ix'.buckets = ix.buckets ∧
        Op.repliesTo (· = .nextLazy c) later (opened.run later).2 =
          called.answer.map (fun answer => .solutions answer.toList) ∧
        (∃ seen : List (List EntryId), seen.length = ledgers.length ∧
          seen.flatten ++ called.state.remaining = ix'.storedIds ∧
          called.answer.map Option.toList = List.zipWith hitClass.solutions ledgers seen) ∧
        let first := (hitClass.solutions ix'.ledger called.state.remaining).head?
        (now.step (.nextLazy c)).2 = .solutions first.toList ∧
        (now.step (.nextLazy c)).1.counters = now.counters + { unmatchedEmitted :=
          if hitClass = .unmatched then first.toList.length else 0 }) ∧
      (ix'.ledger.size ≠ ix.ledger.size → now.step (.nextLazy c) = (now, .unavailable)) := by
  intro before c opened now ledgers called
  have hafter : opened.MadeBy specs := ((madeBy_of_ofSpecs h).run ops).step _
  have hopened : opened = { before with
      lazyScans := before.lazyScans ++ [⟨place, ix.ledger.size, ix.lazyScan hitClass⟩] } := by
    simp only [opened, before, Session.step, hix]
  have hstart : opened.indices[place]? = some (.base ix) := by
    rw [hopened]
    exact hix
  have hscan : opened.lazyScans[c]? = some ⟨place, ix.ledger.size, ix.lazyScan hitClass⟩ := by
    rw [hopened]
    exact List.getElem?_concat_length
  obtain ⟨ix', hnow, hfills⟩ := hafter.fills_run hstart later
  have hledger : now.ledger place = ix'.ledger := ledger_of_index hnow
  refine ⟨ix', hnow, fun hsize => ?_, fun hsize => ?_⟩
  · have hlow : ix.ledger.size ≤ (opened.ledger place).size := by
      rw [ledger_of_index hstart]
      exact Nat.le_refl _
    rw [← hledger] at hsize
    obtain ⟨hstate, hreplies⟩ := hafter.calls_run hscan hlow later hsize
    obtain ⟨seen, hlength, hleft, hanswers⟩ := (ix.lazyScan hitClass).calls_look ledgers
    have hbuckets := hfills.buckets (hledger ▸ hsize)
    have hclass : called.state.hitClass = hitClass := LazyScan.hitClass_calls _ ledgers
    have hgives := nextLazy_gives hstate hsize
    have hpending : called.state.pending (now.ledger place) =
        hitClass.solutions ix'.ledger called.state.remaining := by
      rw [LazyScan.pending, hclass, hledger]
    have hstored : ix'.storedIds = ix.storedIds := by
      rw [Index.storedIds, Index.storedIds, hbuckets]
    refine ⟨hbuckets, hreplies, ⟨seen, hlength, ?_, hanswers⟩, ?_⟩
    · rw [hleft, Index.remaining_lazyScan, hstored]
    · rw [← hpending, ← hclass]
      exact hgives
  · obtain ⟨scan, hscan'⟩ := lazyScan_run hscan later
    exact step_nextLazy_over hscan' (hledger ▸ hsize)

/-- Between two calls an entry ahead is matched, so that the one scan passes it over and the other
comes to it. A probe leaves the scans open, an entry that comes in does not. -/
example :
    let s := Solution.ofBindings [(⟨"x"⟩, .integer 1)]
    let t := Solution.ofBindings [(⟨"x"⟩, .integer 2)]
    let specs : List IndexSpec := [⟨false, .forOperator .inner [⟨"x"⟩], some (.empty .ordered)⟩]
    let ops : List Op := [.on 0 (.insertAll [s, t, s]), .openLazy 0 .unmatched,
      .openLazy 0 .matched, .nextLazy 0, .on 0 (.mark ⟨0, 2⟩), .on 0 (.probe t), .nextLazy 1,
      .nextLazy 0, .nextLazy 0, .on 0 (.insert s), .nextLazy 0]
    ∃ start, ofSpecs specs = .ok start ∧
      Op.repliesTo (· = .nextLazy 0) ops (start.run ops).2 =
        [.solutions [s], .solutions [t], .solutions [], .unavailable] ∧
      Op.repliesTo (· = .nextLazy 1) ops (start.run ops).2 = [.solutions [s]] ∧
      (start.run ops).1.counters.unmatchedEmitted = 2 := by
  intro s t specs ops
  subst ops specs t s
  exact ⟨_, rfl, by decide +kernel⟩

end Session

end HashJoin
