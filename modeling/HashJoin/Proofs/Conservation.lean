import HashJoin.Proofs.Accounting
import HashJoin.Proofs.ScanCalls

/-! The counters of a session are conserved. What they are raised by along a run adds up to
what happened to the indices, whichever way it came about: entries that came in and did not go
out are stored, buckets that were made and not dropped are there, and matches, refused
solutions and the solutions given out by scans are counted each time and once. What is refused
leaves the counters alone. -/

namespace HashJoin

/-! ### Refusals -/

namespace IndexOp

/-- Whether the reply refuses what was to be done to an entry or a bucket. -/
def isRefused : IndexOp → Reply → Bool
  | .mark _, .flag false | .remove .., .flag false | .removeBucket _, .bucket none => true
  | _, _ => false

end IndexOp

namespace AnyIndex

theorem perform_removeBucket_refused {ix : SharedIndex} {k : Key}
    (h : (ix.core.removeBucket k).answer = none) :
    (shared ix).perform (.removeBucket k) = ⟨.bucket none, shared ix, 0⟩ := by
  change ((ix.lift (ix.core.removeBucket k)).map id _).map shared id = _
  rw [Index.removeBucket_of_refused h]
  rfl

/-- What is refused changes nothing and is not counted. -/
theorem perform_of_refused {ix : AnyIndex} {op : IndexOp}
    (h : op.isRefused (ix.perform op).answer = true) :
    ix.perform op = ⟨(ix.perform op).answer, ix, 0⟩ := by
  cases op with
  | mark e =>
    have hanswer : (ix.perform (.mark e)).answer = .flag (ix.core.mark e).answer := by
      cases ix <;> rfl
    cases ha : (ix.core.mark e).answer with
    | false => rw [perform_mark_refused ha]
    | true => rw [hanswer, ha] at h; contradiction
  | remove k e =>
    cases ha : (ix.core.remove k e).answer with
    | false => rw [perform_remove_refused ha]
    | true =>
      cases ix with
      | base ix => contradiction
      | shared ix =>
        rw [ix.perform_remove, Step.map_answer, show (ix.core.remove k e).answer = true from ha] at h
        contradiction
  | removeBucket k =>
    cases ix with
    | base ix => contradiction
    | shared ix =>
      have hanswer : ((shared ix).perform (.removeBucket k)).answer =
        .bucket ((ix.core.removeBucket k).answer.map ix.core.snapshot) := rfl
      cases ha : (ix.core.removeBucket k).answer with
      | none => rw [perform_removeBucket_refused ha]
      | some b => rw [hanswer, ha] at h; contradiction
  | insert s | insertAll solutions | insertNew s | keying s | lookup k | probe s | clearHits
    | scan c limit | summary | config | join op probe | unshare | buckets | consume op probe =>
    contradiction

end AnyIndex

namespace Session

variable {specs : List IndexSpec} {s : Session}

theorem step_of_refused {place : Nat} {op : IndexOp}
    (h : op.isRefused (s.step (.on place op)).2 = true) : (s.step (.on place op)).1 = s := by
  cases hix : s.indices[place]? with
  | none => simp only [step, hix]
  | some ix =>
    rw [step_on_reply hix] at h
    rw [step_on_eq hix (AnyIndex.perform_of_refused h)]

/-! ### What is told of a step -/

/-- A number of each index, added up. -/
def sum (s : Session) (number : Index → Nat) : Nat := (s.indices.map fun ix => number ix.core).sum

/-- What a step does to each index, added up. -/
def change (number : Index → Index → Nat) (s : Session) (op : Op) : Nat :=
  (List.zipWith (fun ix ix' => number ix.core ix'.core) s.indices (s.step op).1.indices).sum

def bucketsAdded : Session → Op → Nat := change fun ix ix' => ix.buckets.added ix'.buckets

def hitsGained : Session → Op → Nat := change fun ix ix' => ix.ledger.rises ix'.ledger

/-- How many of the solutions that are offered have no key. -/
def turnedAway (s : Session) : Op → Nat
  | .on place op => s.indices[place]?.elim 0 fun ix => op.turnedAway ix.core.config
  | .openScan .. | .next _ | .rest _ | .openLazy .. | .nextLazy _ => 0

/-- Whether a scan that was opened is for unmatched entries. -/
def isUnmatched (s : Session) (cursor : Nat) : Bool :=
  s.cursors[cursor]?.any (·.hitClass = .unmatched)

/-- Whether a lazy scan is for unmatched entries. -/
def isLazyUnmatched (s : Session) (c : Nat) : Bool :=
  s.lazyScans[c]?.any (·.scan.hitClass = .unmatched)

/-- How many solutions are given out by scans for unmatched entries. -/
def yielded (s : Session) : Op → Nat
  | .on place op => op.yielded (s.step (.on place op)).2
  | .openScan .. | .openLazy .. => 0
  | .next c => if s.isUnmatched c then (s.step (.next c)).2.given else 0
  | .rest c => if s.isUnmatched c then (s.step (.rest c)).2.given else 0
  | .nextLazy c => if s.isLazyUnmatched c then (s.step (.nextLazy c)).2.given else 0

/-- What is told of each step of a run, added up. -/
def total (count : Session → Op → Nat) (s : Session) : List Op → Nat
  | [] => 0
  | op :: ops => count s op + (s.step op).1.total count ops

/-- From `before` to `after` the counters are raised by what is told of the steps in between. -/
structure Accounts (before after : Session) (c : Counters)
    (told : (Session → Op → Nat) → Nat) : Prop where
  counters : after.counters = before.counters + c
  stored : after.sum Index.stored + c.removals = before.sum Index.stored + c.inserts
  buckets : after.sum Index.bucketCount + c.bucketsDropped =
    before.sum Index.bucketCount + told bucketsAdded
  rejected : c.rejected = told turnedAway
  hits : c.hits = told hitsGained
  emitted : c.unmatchedEmitted = told yielded

theorem Accounts.trans {s' s'' : Session} {c c' : Counters} {told told' : (Session → Op → Nat) → Nat}
    (h : s.Accounts s' c told) (h' : s'.Accounts s'' c' told') :
    s.Accounts s'' (c + c') fun count => told count + told' count where
  counters := by rw [h'.counters, h.counters, Counters.add_assoc]
  stored := by
    have := h.stored
    have := h'.stored
    rw [Counters.add_removals, Counters.add_inserts]
    omega
  buckets := by
    have := h.buckets
    have := h'.buckets
    rw [Counters.add_bucketsDropped]
    omega
  rejected := by rw [Counters.add_rejected, h.rejected, h'.rejected]
  hits := by rw [Counters.add_hits, h.hits, h'.hits]
  emitted := by rw [Counters.add_unmatchedEmitted, h.emitted, h'.emitted]

theorem change_eq_zero {number : Index → Index → Nat} (hnumber : ∀ ix, number ix ix = 0) {op : Op}
    (hsame : (s.step op).1.indices = s.indices) : s.change number op = 0 := by
  rw [change, hsame, List.zipWith_self]
  refine List.sum_eq_zero fun n hn => ?_
  obtain ⟨ix, -, rfl⟩ := List.mem_map.1 hn
  exact hnumber ix.core

/-- A step that leaves the indices alone counts no more than what it gives out. -/
theorem accounts_of_indices {op : Op} (hsame : (s.step op).1.indices = s.indices)
    (hcounters : (s.step op).1.counters = s.counters + { unmatchedEmitted := s.yielded op })
    (hturned : s.turnedAway op = 0) :
    s.Accounts (s.step op).1 { unmatchedEmitted := s.yielded op } fun count => count s op := by
  have hadded : s.bucketsAdded op = 0 :=
    change_eq_zero (fun ix => Buckets.added_eq_zero fun _ hn => hn) hsame
  have hgained : s.hitsGained op = 0 := change_eq_zero (fun ix => ix.ledger.rises_self) hsame
  refine ⟨hcounters, ?_, ?_, hturned.symm, hgained.symm, rfl⟩
  · rw [sum, hsame]
    rfl
  · rw [hadded, sum, hsame]
    rfl

/-! ### Steps -/

/-- A cursor that is read counts what it gives out. -/
theorem accounts_readCursor {op : Op} {c : Nat} {read : Cursor → Ledger → Step Cursor Reply}
    (hop : s.step op = s.readCursor c read) (hturned : s.turnedAway op = 0)
    (hyielded : s.yielded op = if s.isUnmatched c then (s.step op).2.given else 0)
    (hread : ∀ cursor ledger, (read cursor ledger).counters =
      cursor.hitClass.emitting (read cursor ledger).answer.given) :
    s.Accounts (s.step op).1 { unmatchedEmitted := s.yielded op } fun count => count s op := by
  have hboth : (s.step op).1.indices = s.indices ∧
      (s.step op).1.counters = s.counters + { unmatchedEmitted := s.yielded op } := by
    rw [hyielded, isUnmatched, hop, readCursor]
    cases s.cursors[c]? with
    | none => exact ⟨rfl, rfl⟩
    | some cursor =>
      refine ⟨rfl, congrArg (s.counters + ·) ((hread cursor _).trans ?_)⟩
      dsimp only
      rw [Option.any_some]
      cases cursor.hitClass <;> rfl
  exact accounts_of_indices hboth.1 hboth.2 hturned

theorem accounts_next (s : Session) (c : Nat) : s.Accounts (s.step (.next c)).1
    { unmatchedEmitted := s.yielded (.next c) } fun count => count s (.next c) := by
  have hop : s.step (.next c) = s.readCursor c fun cursor ledger =>
    (cursor.next ledger).map id fun found =>
      .next found (cursor.next ledger).state.remaining.length := rfl
  refine accounts_readCursor hop rfl rfl fun cursor ledger => ?_
  rw [Step.map_counters, Step.map_answer, Reply.given, Cursor.next]
  cases cursor.hitClass.next? ledger cursor.remaining with
  | none => cases cursor.hitClass <;> rfl
  | some found => rfl

theorem accounts_rest (s : Session) (c : Nat) : s.Accounts (s.step (.rest c)).1
    { unmatchedEmitted := s.yielded (.rest c) } fun count => count s (.rest c) := by
  have hop : s.step (.rest c) = s.readCursor c fun cursor ledger =>
    (cursor.rest ledger).map id .solutions := rfl
  exact accounts_readCursor hop rfl rfl fun _ _ => rfl

/-- So does a lazy scan. -/
theorem accounts_nextLazy (s : Session) (c : Nat) : s.Accounts (s.step (.nextLazy c)).1
    { unmatchedEmitted := s.yielded (.nextLazy c) } fun count => count s (.nextLazy c) := by
  refine accounts_of_indices (s.step_nextLazy_same c).1 ?_ rfl
  rw [yielded, isLazyUnmatched, step]
  cases s.lazyScans[c]? with
  | none => rfl
  | some found =>
    dsimp only
    rw [Option.any_some, readLazy]
    split
    · refine congrArg (s.counters + ·) ((found.scan.counters_next _).trans ?_)
      cases found.scan.hitClass <;> rfl
    · cases found.scan.hitClass <;> rfl

theorem accounts_open (s : Session) {op : Op} {place : Nat} {hitClass : HitClass}
    (hop : op ∈ [.openScan place hitClass, .openLazy place hitClass]) :
    s.Accounts (s.step op).1 0 fun count => count s op := by
  rcases List.mem_pair.1 hop with rfl | rfl
  all_goals
    refine accounts_of_indices ?_ ?_ rfl
    all_goals
      rw [step]
      split <;> rfl

/-! Indices side by side: what is done to one of them changes only its summand. -/

section Summands

variable {α : Type} {x : α} {place : Nat} {xs : List α}

theorem sum_map_set (number : α → Nat) (h : xs[place]? = some x) (y : α) :
    ((xs.set place y).map number).sum + number x = (xs.map number).sum + number y := by
  induction xs generalizing place with
  | nil => contradiction
  | cons x' xs ih =>
    cases place with
    | zero =>
      obtain rfl := Option.some.inj h
      rw [List.set_cons_zero, List.map_cons, List.map_cons, List.sum_cons, List.sum_cons]
      omega
    | succ place =>
      have hrest := ih h
      rw [List.set_cons_succ, List.map_cons, List.map_cons, List.sum_cons, List.sum_cons]
      omega

theorem sum_zipWith_set {number : α → α → Nat} (hnumber : ∀ x, number x x = 0)
    (h : xs[place]? = some x) (y : α) :
    (List.zipWith number xs (xs.set place y)).sum = number x y := by
  induction xs generalizing place with
  | nil => contradiction
  | cons x' xs ih =>
    cases place with
    | zero =>
      obtain rfl := Option.some.inj h
      rw [List.set_cons_zero, List.zipWith_cons_cons, List.sum_cons, List.zipWith_self,
        List.sum_eq_zero fun n hn => ?_, Nat.add_zero]
      obtain ⟨x, -, rfl⟩ := List.mem_map.1 hn
      exact hnumber x
    | succ place =>
      rw [List.set_cons_succ, List.zipWith_cons_cons, List.sum_cons, hnumber, Nat.zero_add]
      exact ih h

end Summands

theorem MadeBy.accounts_on (h : s.MadeBy specs) {place : Nat} {ix : AnyIndex}
    (hix : s.indices[place]? = some ix) (op : IndexOp) :
    s.Accounts (s.step (.on place op)).1 (ix.perform op).counters
      fun count => count s (.on place op) := by
  obtain ⟨spec, -, hmade⟩ := h place ix hix
  have haccounts := hmade.coherent.accounts op
  have hset : (s.step (.on place op)).1.indices = s.indices.set place (ix.perform op).state := by
    simp only [Session.step, hix]
  have hsum : ∀ number : Index → Nat, (s.step (.on place op)).1.sum number + number ix.core =
      s.sum number + number (ix.perform op).state.core := by
    intro number
    rw [sum, sum, hset]
    exact sum_map_set (fun ix => number ix.core) hix _
  have hchange : ∀ number : Index → Index → Nat, (∀ ix, number ix ix = 0) →
      s.change number (.on place op) = number ix.core (ix.perform op).state.core := by
    intro number hnumber
    rw [change, hset]
    exact sum_zipWith_set (fun ix => hnumber ix.core) hix _
  have hadded : s.bucketsAdded (.on place op) =
      ix.core.buckets.added (ix.perform op).state.core.buckets :=
    hchange _ fun _ => Buckets.added_eq_zero fun _ hn => hn
  have hgained : s.hitsGained (.on place op) =
      ix.core.ledger.rises (ix.perform op).state.core.ledger :=
    hchange _ fun ix => ix.ledger.rises_self
  refine ⟨by simp only [Session.step, hix], ?_, ?_, ?_, ?_, ?_⟩
  · have hstored := haccounts.stored
    have := hsum Index.stored
    omega
  · have hbuckets := haccounts.buckets
    have := hsum Index.bucketCount
    rw [hadded]
    omega
  · rw [haccounts.rejected, turnedAway, hix, Option.elim_some]
  · rw [haccounts.hits, hgained]
  · rw [haccounts.emitted, yielded, step_on_reply hix]

/-- Every step raises the counters by what can be told of it. -/
theorem MadeBy.accounts_step (h : s.MadeBy specs) (op : Op) :
    ∃ c, s.Accounts (s.step op).1 c fun count => count s op := by
  cases op with
  | openScan place hitClass => exact ⟨_, s.accounts_open List.mem_cons_self⟩
  | openLazy place hitClass => exact ⟨_, s.accounts_open (List.mem_cons_of_mem _ List.mem_cons_self)⟩
  | next c => exact ⟨_, s.accounts_next c⟩
  | rest c => exact ⟨_, s.accounts_rest c⟩
  | nextLazy c => exact ⟨_, s.accounts_nextLazy c⟩
  | on place op =>
    cases hix : s.indices[place]? with
    | some ix => exact ⟨_, h.accounts_on hix op⟩
    | none =>
      have hstep : s.step (.on place op) = (s, .unavailable) := by simp only [Session.step, hix]
      have hyielded : s.yielded (.on place op) = 0 := by
        rw [yielded, hstep, IndexOp.yielded.eq_def]
        split <;> rfl
      refine ⟨_, accounts_of_indices ?_ ?_ ?_⟩
      · rw [hstep]
      · rw [hstep, hyielded]
        rfl
      · rw [turnedAway, hix, Option.elim_none]

theorem MadeBy.accounts_run (h : s.MadeBy specs) (ops : List Op) :
    ∃ c, s.Accounts (s.run ops).1 c fun count => s.total count ops := by
  induction ops generalizing s with
  | nil => exact ⟨0, ⟨rfl, rfl, rfl, rfl, rfl, rfl⟩⟩
  | cons op ops ih =>
    obtain ⟨c, hstep⟩ := h.accounts_step op
    obtain ⟨c', hrun⟩ := ih (h.step op)
    exact ⟨c + c', hstep.trans hrun⟩

/-! ### Runs -/

/-- In a new session nothing is stored. -/
theorem sum_of_ofSpecs (h : ofSpecs specs = .ok s) :
    s.counters = 0 ∧ s.sum Index.stored = 0 ∧ s.sum Index.bucketCount = 0 := by
  have hnone : ∀ ix ∈ s.indices, ix.core.stored = 0 ∧ ix.core.bucketCount = 0 := by
    intro ix hix
    obtain ⟨place, hix⟩ := List.mem_iff_getElem?.1 hix
    obtain ⟨spec, -, hmade⟩ := index_of_ofSpecs h hix
    obtain ⟨config, -, -, hf⟩ := IndexSpec.follows_of_index hmade
    refine ⟨?_, hf.core.bucketCount⟩
    rw [hf.core.coherent.stored, hf.core.log_eq]
    rfl
  refine ⟨?_, List.sum_eq_zero fun n hn => ?_, List.sum_eq_zero fun n hn => ?_⟩
  · rw [ofSpecs] at h
    cases hi : IndexSpec.indices 0 specs with
    | error e => rw [hi] at h; contradiction
    | ok indices => rw [hi] at h; cases h; rfl
  · obtain ⟨ix, hix, rfl⟩ := List.mem_map.1 hn
    exact (hnone ix hix).1
  · obtain ⟨ix, hix, rfl⟩ := List.mem_map.1 hn
    exact (hnone ix hix).2

/-- The counters at the end of a run tell what happened in it. The solutions stored and not
removed are those that the indices have, and the buckets added and not dropped are there. The
solutions turned away, the hits that entries gained and the solutions that scans for unmatched
entries gave out are counted, and nothing is counted of what is refused. -/
theorem run_conserves (h : ofSpecs specs = .ok s) (ops : List Op) :
    let last := (s.run ops).1
    last.counters.inserts = last.counters.removals + last.sum Index.stored ∧
    s.total bucketsAdded ops = last.counters.bucketsDropped + last.sum Index.bucketCount ∧
    last.counters.rejected = s.total turnedAway ops ∧
    last.counters.hits = s.total hitsGained ops ∧
    last.counters.unmatchedEmitted = s.total yielded ops ∧
    ∀ (place : Nat) (op : IndexOp), op.isRefused (last.step (.on place op)).2 = true →
      (last.step (.on place op)).1 = last := by
  intro last
  obtain ⟨c, haccounts⟩ := (madeBy_of_ofSpecs h).accounts_run ops
  obtain ⟨hzero, hstored, hbuckets⟩ := sum_of_ofSpecs h
  have hc : last.counters = c := by rw [haccounts.counters, hzero, Counters.zero_add]
  have hlast := haccounts.stored
  have hcount := haccounts.buckets
  rw [hstored] at hlast
  rw [hbuckets] at hcount
  rw [hc]
  refine ⟨?_, ?_, haccounts.rejected, haccounts.hits, haccounts.emitted,
    fun place op => step_of_refused⟩
  · rw [← Nat.zero_add c.inserts, ← hlast, Nat.add_comm]
  · rw [← Nat.zero_add (s.total _ _), ← hcount, Nat.add_comm]

/-- An index alone and a shared one are filled, matched, scanned and emptied again in all the
ways that there are. Two solutions are turned away, a key comes back after its bucket was
dropped, and a removed entry is offered once more. -/
theorem run_conserves_shared :
    let s := Solution.ofBindings [(⟨"x"⟩, .integer 1)]
    let t := Solution.ofBindings [(⟨"x"⟩, .integer 2)]
    let k := Key.ofSlots [some (.integer 1)]
    let source := ConfigSource.forOperator .inner [⟨"x"⟩]
    let specs : List IndexSpec :=
      [⟨false, source, some (.empty .ordered)⟩, ⟨true, source, some (.empty .arrival)⟩]
    let ops : List Op := [.on 0 (.insertAll [s, .empty, t]), .on 0 (.insertNew t),
      .on 0 (.join .optional s), .on 0 (.scan .unmatched (some 1)), .on 1 (.insert .empty),
      .on 1 (.insertAll [s, s, t]), .openScan 1 .unmatched, .on 1 (.mark ⟨1, 0⟩), .next 0,
      .on 1 (.consume .inner s), .on 1 (.insert s), .on 1 (.remove k ⟨1, 3⟩), .rest 0,
      .on 1 (.insert s), .on 1 (.removeBucket k)]
    ∃ start, ofSpecs specs = .ok start ∧
      let last := (start.run ops).1
      last.counters.inserts = last.counters.removals + 3 ∧
      6 = last.counters.bucketsDropped + 3 ∧ last.counters.rejected = 2 ∧
      last.counters.hits = 4 ∧ last.counters.unmatchedEmitted = 3 ∧
      IndexOp.isRefused (.mark ⟨1, 0⟩) (last.step (.on 1 (.mark ⟨1, 0⟩))).2 = true ∧
      (last.step (.on 1 (.mark ⟨1, 0⟩))).1 = last := by
  intro s t k source specs ops
  have hmade : ∃ start, ofSpecs specs = .ok start ∧
      (start.run ops).1.sum Index.stored = 3 ∧ (start.run ops).1.sum Index.bucketCount = 3 ∧
      start.total bucketsAdded ops = 6 ∧ start.total turnedAway ops = 2 ∧
      start.total hitsGained ops = 4 ∧ start.total yielded ops = 3 ∧
      IndexOp.isRefused (.mark ⟨1, 0⟩) ((start.run ops).1.step (.on 1 (.mark ⟨1, 0⟩))).2 = true := by
    subst ops specs source k t s
    exact ⟨_, rfl, by decide +kernel⟩
  obtain ⟨start, h, hstored, hbuckets, hadded, hturned, hgained, hyielded, hrefused⟩ := hmade
  obtain ⟨hinserts, hdropped, hrejected, hhits, hemitted, hrefusals⟩ := run_conserves h ops
  rw [hstored] at hinserts
  rw [hadded, hbuckets] at hdropped
  rw [hturned] at hrejected
  rw [hgained] at hhits
  rw [hyielded] at hemitted
  have hsame := hrefusals 1 (.mark ⟨1, 0⟩) hrefused
  exact ⟨start, h, hinserts, hdropped, hrejected, hhits, hemitted, hrefused, hsame⟩

end Session

end HashJoin
