import HashJoin.Proofs.Scan

/-! Asking a lazy scan for one solution after the other. A call looks at entries up to the first
that is in the class of the scan, in the bucket under way or behind any number of buckets that
have nothing to give, and the scan goes on behind it. So the calls share the entries out among
themselves, and each reads the hits of its own time. While hits stay as they are, what a scan has
still to give out is a list, of which a call takes the head and leaves the tail: a number of calls
takes a beginning of the list, and calls that go on until nothing comes take all of it. -/

namespace HashJoin

/-- The entries of some numbers, as they are now. -/
def Ledger.entries (ledger : Ledger) (ids : List EntryId) : List Entry := ids.filterMap (ledger[·]?)

namespace HitClass

variable (c : HitClass) (ledger : Ledger)

theorem solutions_eq_map_filter (ids : List EntryId) :
    c.solutions ledger ids = ((ledger.entries ids).filter c.includes).map Entry.solution := by
  rw [Ledger.entries, List.filter_filterMap, List.map_filterMap]
  rfl

theorem includes_iff (e : Entry) : (unmatched.includes e = true ↔ e.hits = 0) ∧
    (matched.includes e = true ↔ 0 < e.hits) := by
  simp [includes, Entry.isMatched]

/-- Every entry is in one of the two classes and not in the other. -/
theorem filter_includes_perm (es : List Entry) :
    (es.filter unmatched.includes ++ es.filter matched.includes).Perm es := by
  have hmatched : matched.includes = fun e => !unmatched.includes e := by
    funext e
    exact (Bool.not_not _).symm
  rw [hmatched]
  exact List.filter_append_perm unmatched.includes es

theorem emitting_eq (n : Nat) :
    c.emitting n = { unmatchedEmitted := if c = .unmatched then n else 0 } := by
  cases c <;> rfl

theorem emitting_zero : c.emitting 0 = 0 := by
  cases c <;> rfl

theorem emitting_add (m n : Nat) : c.emitting m + c.emitting n = c.emitting (m + n) := by
  cases c <;> rfl

/-- Of the entries up to the next solution only the last one is in the class. -/
theorem next?_looks {ids rest : List EntryId} {s : Solution}
    (h : c.next? ledger ids = some (s, rest)) :
    ∃ looked, looked ++ rest = ids ∧ c.solutions ledger looked = [s] := by
  fun_induction next? c ledger ids with
  | case1 => contradiction
  | case2 id ids e he hc =>
    cases h
    exact ⟨[id], rfl, List.filterMap_cons_some (by simp [he, hc, Option.filter])⟩
  | case3 id ids e he hc ih =>
    obtain ⟨looked, rfl, hlooked⟩ := ih h
    exact ⟨id :: looked, rfl, (List.filterMap_cons_none (by simp [he, hc])).trans hlooked⟩
  | case4 id ids he ih =>
    obtain ⟨looked, rfl, hlooked⟩ := ih h
    exact ⟨id :: looked, rfl, (List.filterMap_cons_none (by simp [he])).trans hlooked⟩

end HitClass

namespace LazyScan

variable (scan : LazyScan) (ledger : Ledger)

/-- What the scan has still to give out, as hits are now. -/
def pending : List Solution := scan.hitClass.solutions ledger scan.remaining

/-! ### One call -/

/-- Buckets without an entry of the class are passed over on the way to the next solution. -/
theorem nextFrom_looks {c : HitClass} {current : Bucket} {later : List Bucket} {rest : LazyScan}
    {s : Solution} (h : nextFrom c ledger current later = some (s, rest)) :
    ∃ looked, looked ++ rest.remaining = current ++ later.flatten ∧
      c.solutions ledger looked = [s] := by
  induction later generalizing current with
  | nil =>
    rw [nextFrom, Option.map_eq_some_iff] at h
    obtain ⟨⟨t, ids⟩, hn, he⟩ := h
    cases he
    obtain ⟨looked, rfl, hlooked⟩ := c.next?_looks ledger hn
    exact ⟨looked, by simp [remaining], hlooked⟩
  | cons bucket later ih =>
    rw [nextFrom] at h
    split at h
    next found hn =>
      cases h
      obtain ⟨looked, rfl, hlooked⟩ := c.next?_looks ledger hn
      exact ⟨looked, (List.append_assoc _ _ _).symm, hlooked⟩
    next hn =>
      obtain ⟨looked, hrest, hlooked⟩ := ih h
      refine ⟨current ++ looked, ?_, ?_⟩
      · rw [List.append_assoc, hrest, List.flatten_cons]
      · rw [HitClass.solutions_append, HitClass.solutions_eq_nil hn, hlooked, List.nil_append]

/-- A call looks at some entries and gives out the one of them that is in the class, if any. -/
theorem next_looks : ∃ looked, looked ++ (scan.next ledger).state.remaining = scan.remaining ∧
    (scan.next ledger).answer.toList = scan.hitClass.solutions ledger looked := by
  rw [next]
  split
  next s rest h =>
    obtain ⟨looked, hrest, hlooked⟩ := nextFrom_looks ledger h
    exact ⟨looked, hrest, hlooked.symm⟩
  next h => exact ⟨scan.remaining, List.append_nil _, (solutions_eq_nil_of_nextFrom h).symm⟩

/-- Nothing comes only when nothing is left. -/
theorem remaining_next (h : (scan.next ledger).answer = none) :
    (scan.next ledger).state.remaining = [] := by
  rw [next] at h ⊢
  split at h
  next => contradiction
  next => rfl

theorem hitClass_next : (scan.next ledger).state.hitClass = scan.hitClass := by
  rw [next]
  split
  next s rest h => exact (solutions_eq_cons_of_nextFrom h).1
  next => rfl

theorem counters_next : (scan.next ledger).counters =
    scan.hitClass.emitting (scan.next ledger).answer.toList.length := by
  rw [next]
  split
  next => rfl
  next => exact scan.hitClass.emitting_zero.symm

/-- A call takes the head of what is pending and leaves the tail. -/
theorem next_takes : (scan.next ledger).answer = (scan.pending ledger).head? ∧
    (scan.next ledger).state.pending ledger = (scan.pending ledger).tail := by
  obtain ⟨looked, hrest, hlooked⟩ := scan.next_looks ledger
  have hpending : scan.pending ledger =
      (scan.next ledger).answer.toList ++ (scan.next ledger).state.pending ledger := by
    rw [pending, pending, hitClass_next, hlooked, ← HitClass.solutions_append, hrest]
  rw [hpending]
  cases h : (scan.next ledger).answer with
  | some s => exact ⟨rfl, rfl⟩
  | none =>
    rw [pending, scan.remaining_next ledger h]
    exact ⟨rfl, rfl⟩

/-! ### Many calls -/

/-- One call after the other, each with the hits of its own time. -/
def calls (scan : LazyScan) (ledgers : List Ledger) : Step LazyScan (List (Option Solution)) :=
  Step.each next scan ledgers

/-- The solutions that calls gave out. -/
def given (answers : List (Option Solution)) : List Solution := answers.flatMap Option.toList

theorem calls_cons (ledgers : List Ledger) : scan.calls (ledger :: ledgers) =
    (scan.next ledger).andThen fun rest found => (rest.calls ledgers).map id (found :: ·) := rfl

theorem given_cons (answer : Option Solution) (answers : List (Option Solution)) :
    given (answer :: answers) = answer.toList ++ given answers := List.flatMap_cons

/-- Calls share the entries out: each goes on behind those that the ones before it looked at. -/
theorem calls_look (ledgers : List Ledger) : ∃ seen : List (List EntryId),
    seen.length = ledgers.length ∧
    seen.flatten ++ (scan.calls ledgers).state.remaining = scan.remaining ∧
    (scan.calls ledgers).answer.map Option.toList =
      List.zipWith scan.hitClass.solutions ledgers seen := by
  induction ledgers generalizing scan with
  | nil => exact ⟨[], rfl, rfl, rfl⟩
  | cons ledger ledgers ih =>
    obtain ⟨looked, hrest, hlooked⟩ := scan.next_looks ledger
    obtain ⟨seen, hlength, hleft, hanswers⟩ := ih (scan.next ledger).state
    refine ⟨looked :: seen, congrArg Nat.succ hlength, ?_, ?_⟩
    · rw [calls_cons, Step.andThen_state, Step.map_state, List.flatten_cons, List.append_assoc,
        ← hrest]
      exact congrArg (looked ++ ·) hleft
    · rw [hitClass_next] at hanswers
      rw [calls_cons, Step.andThen_answer, Step.map_answer, List.map_cons, hlooked, hanswers,
        List.zipWith_cons_cons]

theorem hitClass_calls (ledgers : List Ledger) :
    (scan.calls ledgers).state.hitClass = scan.hitClass :=
  Step.each_keeps (P := fun rest : LazyScan => rest.hitClass = scan.hitClass)
    (fun rest ledger h => (rest.hitClass_next ledger).trans h) rfl ledgers

/-- A scan is through once a call gave nothing. -/
theorem calls_through (ledgers : List Ledger) :
    none ∉ (scan.calls ledgers).answer ∨ (scan.calls ledgers).state.remaining = [] := by
  induction ledgers generalizing scan with
  | nil => exact .inl List.not_mem_nil
  | cons ledger ledgers ih =>
    rw [calls_cons, Step.andThen_answer, Step.andThen_state, Step.map_answer, Step.map_state]
    cases h : (scan.next ledger).answer with
    | some s => simpa using ih (scan.next ledger).state
    | none =>
      obtain ⟨seen, -, hleft, -⟩ := (scan.next ledger).state.calls_look ledgers
      rw [scan.remaining_next ledger h] at hleft
      exact .inr (List.append_eq_nil_iff.1 hleft).2

/-- Just what is given out is counted. -/
theorem calls_counters (ledgers : List Ledger) : (scan.calls ledgers).counters =
    scan.hitClass.emitting (given (scan.calls ledgers).answer).length := by
  induction ledgers generalizing scan with
  | nil => exact scan.hitClass.emitting_zero.symm
  | cons ledger ledgers ih =>
    rw [calls_cons, Step.andThen_counters, Step.andThen_answer, Step.map_counters,
      Step.map_answer, ih, hitClass_next, counters_next, HitClass.emitting_add, given_cons,
      List.length_append]

/-- While hits stay as they are, call number `i` gives the pending solution of that number, as
long as there is one. -/
theorem calls_answer (n : Nat) : (scan.calls (List.replicate n ledger)).answer =
    (List.range n).map fun i => (scan.pending ledger)[i]? := by
  induction n generalizing scan with
  | zero => rfl
  | succ n ih =>
    obtain ⟨hhead, htail⟩ := scan.next_takes ledger
    have hrest := ih (scan.next ledger).state
    rw [htail] at hrest
    rw [List.replicate_succ, calls_cons, Step.andThen_answer, Step.map_answer, hrest, hhead,
      List.head?_eq_getElem?, List.range_succ_eq_map, List.map_cons, List.map_map]
    exact congrArg (List.cons _) (List.map_congr_left fun i _ => List.getElem?_tail)

/-- So many calls give out so many pending solutions, as long as there are any. -/
theorem given_calls (n : Nat) :
    given (scan.calls (List.replicate n ledger)).answer = (scan.pending ledger).take n := by
  induction n generalizing scan with
  | zero => exact List.take_zero.symm
  | succ n ih =>
    obtain ⟨hhead, htail⟩ := scan.next_takes ledger
    rw [List.replicate_succ, calls_cons, Step.andThen_answer, Step.map_answer, given_cons, ih,
      hhead, htail]
    cases scan.pending ledger with
    | nil => exact List.take_nil
    | cons s later => rfl

/-! ### Calls until nothing comes -/

/-- The entry of a solution that was given out is left behind. -/
theorem length_remaining_lt {s : Solution} (h : (scan.next ledger).answer = some s) :
    (scan.next ledger).state.remaining.length < scan.remaining.length := by
  obtain ⟨looked, hrest, hlooked⟩ := scan.next_looks ledger
  have hlength := HitClass.length_solutions_le scan.hitClass ledger looked
  rw [← hlooked, h, Option.toList_some, List.length_singleton] at hlength
  rw [← hrest, List.length_append]
  omega

/-- Call until nothing comes. -/
def exhaust (ledger : Ledger) (scan : LazyScan) : Step LazyScan (List Solution) :=
  let call := scan.next ledger
  match _h : call.answer with
  | none => ⟨[], call.state, call.counters⟩
  | some s =>
    let others := exhaust ledger call.state
    ⟨s :: others.answer, others.state, call.counters + others.counters⟩
  termination_by scan.remaining.length
  decreasing_by exact scan.length_remaining_lt ledger _h

/-- All that is pending comes, and then nothing. -/
theorem exhaust_answer : (scan.exhaust ledger).answer = scan.pending ledger := by
  fun_induction exhaust ledger scan with
  | case1 scan call h =>
    rw [(scan.next_takes ledger).1, List.head?_eq_none_iff] at h
    exact h.symm
  | case2 scan call s h others ih =>
    rw [(scan.next_takes ledger).1, List.head?_eq_some_iff] at h
    obtain ⟨later, hlater⟩ := h
    rw [ih, (scan.next_takes ledger).2, hlater]
    rfl

theorem exhaust_counters : (scan.exhaust ledger).counters =
    scan.hitClass.emitting (scan.exhaust ledger).answer.length := by
  fun_induction exhaust ledger scan with
  | case1 scan call h => rw [scan.counters_next ledger, h]; rfl
  | case2 scan call s h others ih =>
    rw [ih, scan.counters_next ledger, h, scan.hitClass_next ledger, HitClass.emitting_add]
    exact congrArg scan.hitClass.emitting (Nat.add_comm _ _)

end LazyScan

namespace Index

variable (ix : Index) (c : HitClass)

/-- A scan of an index without a limit calls until nothing comes. -/
theorem scan_eq_exhaust :
    let all := (ix.lazyScan c).exhaust ix.ledger
    ix.scan c = ⟨all.answer, ix, all.counters⟩ := by
  intro all
  have hdrain : (ix.lazyScan c).drain ix.ledger = all.answer := by
    rw [LazyScan.drain_eq, LazyScan.exhaust_answer, LazyScan.pending]
  rw [LazyScan.exhaust_counters, ← hdrain]
  rfl

/-- A limit is the number of calls. -/
theorem scan_eq_calls (n : Nat) :
    let called := (ix.lazyScan c).calls (List.replicate n ix.ledger)
    ix.scan c (some n) = ⟨LazyScan.given called.answer, ix, called.counters⟩ := by
  intro called
  have htake : (ix.lazyScan c).take ix.ledger n = LazyScan.given called.answer := by
    rw [LazyScan.take_eq, LazyScan.given_calls, LazyScan.pending]
  rw [LazyScan.calls_counters, ← htake]
  rfl

end Index

namespace LazyScan

/-- A lazy scan over any buckets. Its calls share the entries out in the order of the buckets and
of arrival; each gives out the entry of its share that is in the class, read at its time, and only
a call that looks at the last entry can give nothing. What was given out is counted when it was
not matched. While hits stay as they are, the scan lists the entries of its class: call number
`i` gives the solution of that number, `n` calls give the first `n`, and calls that go on until
nothing comes give all; the two scans together give every entry once. An index scans its buckets
in this way. -/
theorem gives_passing (c : HitClass) (buckets : List Bucket) :
    let scan := ofBuckets c buckets
    let passing (ledger : Ledger) (ids : List EntryId) :=
      ((ledger.entries ids).filter c.includes).map Entry.solution
    (∀ e : Entry, (HitClass.unmatched.includes e = true ↔ e.hits = 0) ∧
      (HitClass.matched.includes e = true ↔ 0 < e.hits)) ∧
    (∀ ledgers, let called := scan.calls ledgers
      (∃ seen : List (List EntryId), seen.length = ledgers.length ∧
        seen.flatten ++ called.state.remaining = buckets.flatten ∧
        called.answer.map Option.toList = List.zipWith passing ledgers seen) ∧
      (none ∉ called.answer ∨ called.state.remaining = []) ∧
      called.counters =
        { unmatchedEmitted := if c = .unmatched then (given called.answer).length else 0 }) ∧
    (∀ ledger, let found := passing ledger buckets.flatten
      (scan.exhaust ledger).answer = found ∧ (scan.exhaust ledger).counters =
        { unmatchedEmitted := if c = .unmatched then found.length else 0 } ∧
      (∀ n, (scan.calls (List.replicate n ledger)).answer = (List.range n).map (found[·]?) ∧
        given (scan.calls (List.replicate n ledger)).answer = found.take n) ∧
      (((ofBuckets .unmatched buckets).exhaust ledger).answer ++
        ((ofBuckets .matched buckets).exhaust ledger).answer).Perm
          ((ledger.entries buckets.flatten).map Entry.solution)) ∧
    ∀ ix : Index, let scan := ofBuckets c (ix.buckets.toList.map Prod.snd)
      ix.scan c = ⟨(scan.exhaust ix.ledger).answer, ix, (scan.exhaust ix.ledger).counters⟩ ∧
      ∀ n, let called := scan.calls (List.replicate n ix.ledger)
        ix.scan c (some n) = ⟨given called.answer, ix, called.counters⟩ := by
  intro scan passing
  have hpassing : ∀ ledger ids, c.solutions ledger ids = passing ledger ids :=
    c.solutions_eq_map_filter
  refine ⟨HitClass.includes_iff, fun ledgers => ⟨?_, scan.calls_through ledgers, ?_⟩,
    fun ledger => ⟨?_, ?_, fun n => ⟨?_, ?_⟩, ?_⟩,
    fun ix => ⟨ix.scan_eq_exhaust c, ix.scan_eq_calls c⟩⟩
  · obtain ⟨seen, hlength, hleft, hanswers⟩ := scan.calls_look ledgers
    refine ⟨seen, hlength, hleft, hanswers.trans ?_⟩
    congr 1
    funext ledger ids
    exact hpassing ledger ids
  · rw [calls_counters, HitClass.emitting_eq]
    rfl
  · exact (scan.exhaust_answer ledger).trans (hpassing ledger buckets.flatten)
  · rw [exhaust_counters, exhaust_answer, HitClass.emitting_eq]
    exact hpassing ledger buckets.flatten ▸ rfl
  · exact hpassing ledger buckets.flatten ▸ scan.calls_answer ledger n
  · exact hpassing ledger buckets.flatten ▸ scan.given_calls ledger n
  · have hgiven : ∀ c, ((ofBuckets c buckets).exhaust ledger).answer =
        ((ledger.entries buckets.flatten).filter c.includes).map Entry.solution := fun c =>
      ((ofBuckets c buckets).exhaust_answer ledger).trans
        (c.solutions_eq_map_filter ledger buckets.flatten)
    rw [hgiven, hgiven, ← List.map_append]
    exact (HitClass.filter_includes_perm _).map Entry.solution

end LazyScan

end HashJoin
