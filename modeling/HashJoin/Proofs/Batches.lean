import HashJoin.Proofs.Independence

/-! Storing many solutions at once. All keys are formed first, and then the solutions go in
through a loop of its own that counts at its end. The keys could as well be formed one by one,
since storing never changes the configuration, and the counts of parts add up. So it makes no
difference how solutions are divided into batches: not to the index, down to the numbers of the
entries and the order of the buckets, and not to the counters. -/

namespace HashJoin

namespace Intake

instance : Add Intake where
  add m n := ⟨m.stored + n.stored, m.rejected + n.rejected⟩

theorem zero_add (n : Intake) : {} + n = n :=
  congrArg₂ Intake.mk (Nat.zero_add n.stored) (Nat.zero_add n.rejected)

theorem add_assoc (l m n : Intake) : l + m + n = l + (m + n) :=
  congrArg₂ Intake.mk (Nat.add_assoc ..) (Nat.add_assoc ..)

/-- What is counted for solutions that were offered. -/
def counters (n : Intake) : Counters := { inserts := n.stored, rejected := n.rejected }

end Intake

/-- What becomes of one solution that is offered. -/
def Keying.intake : Keying → Intake
  | .key _ => { stored := 1 }
  | .missing _ => { rejected := 1 }

namespace Index

/-! ### Solutions with their keys -/

theorem insertKeyed_counters (ix : Index) (s : Solution) (keying : Keying) :
    (ix.insertKeyed s keying).counters = keying.intake.counters := by
  cases keying <;> rfl

theorem addKeyed_eq (ix : Index) (n : Intake) (keying : Keying) (s : Solution) :
    addKeyed (ix, n) (keying, s) = ((ix.insertKeyed s keying).state, n + keying.intake) := by
  cases keying <;> rfl

/-- A loop that has counted before goes on like one that begins. -/
theorem foldl_addKeyed_eq (ix : Index) (n : Intake) (items : List (Keying × Solution)) :
    items.foldl addKeyed (ix, n) =
      ((ix.insertAllKeyed items).state, n + (ix.insertAllKeyed items).answer) := by
  induction items generalizing ix n with
  | nil => rfl
  | cons item items ih =>
    obtain ⟨keying, s⟩ := item
    -- on the right-hand side the loop has counted one item, so there the hypothesis is needed too
    have hfirst := ih (ix.insertKeyed s keying).state ({} + keying.intake)
    rw [← addKeyed_eq, Intake.zero_add] at hfirst
    rw [insertAllKeyed, List.foldl_cons, List.foldl_cons, hfirst, addKeyed_eq, ih,
      Intake.add_assoc]

theorem insertAllKeyed_cons (ix : Index) (keying : Keying) (s : Solution)
    (items : List (Keying × Solution)) : ix.insertAllKeyed ((keying, s) :: items) =
      (ix.insertKeyed s keying).andThen fun ix' _ =>
        (ix'.insertAllKeyed items).map id (keying.intake + ·) := by
  rw [insertAllKeyed, List.foldl_cons, addKeyed_eq, foldl_addKeyed_eq, Intake.zero_add,
    Step.andThen, insertKeyed_counters]
  rfl

/-- Solutions may be stored in two parts. -/
theorem insertAllKeyed_append (ix : Index) (items more : List (Keying × Solution)) :
    ix.insertAllKeyed (items ++ more) = (ix.insertAllKeyed items).andThen fun ix' n =>
      (ix'.insertAllKeyed more).map id (n + ·) := by
  rw [insertAllKeyed, List.foldl_append, foldl_addKeyed_eq ix, foldl_addKeyed_eq, Intake.zero_add]
  rfl

/-- Every solution is either stored or turned away. -/
theorem insertAllKeyed_answer (ix : Index) (items : List (Keying × Solution)) :
    (ix.insertAllKeyed items).answer =
      ⟨items.countP fun p => !p.1.isMissing, items.countP fun p => p.1.isMissing⟩ := by
  induction items generalizing ix with
  | nil => rfl
  | cons item items ih =>
    obtain ⟨keying, s⟩ := item
    rw [insertAllKeyed_cons, Step.andThen_answer, Step.map_answer, ih, List.countP_cons,
      List.countP_cons, Nat.add_comm, Nat.add_comm (List.countP _ _)]
    cases keying <;> rfl

theorem config_insertKeyed (ix : Index) (s : Solution) (keying : Keying) :
    (ix.insertKeyed s keying).state.config = ix.config :=
  insertKeyed_keeps (P := fun ix' => ix'.config = ix.config) (fun h _ _ => h) rfl s keying

theorem config_insertAllKeyed (ix : Index) (items : List (Keying × Solution)) :
    (ix.insertAllKeyed items).state.config = ix.config :=
  foldl_addKeyed_keeps (P := fun ix' => ix'.config = ix.config) (fun h _ _ => h) rfl {} items

end Index

namespace AnyIndex

variable (ix : AnyIndex)

/-! ### Solutions whose keys the index forms -/

/-- The key that the index forms for a solution. -/
def keying : AnyIndex → Solution → Keying
  | base ix => ix.keying
  | shared ix => ix.keying

/-- The solutions with the keys that the index forms for them. -/
def keyed (solutions : List Solution) : List (Keying × Solution) :=
  solutions.map fun s => (ix.keying s, s)

theorem perform_insert (s : Solution) :
    ix.perform (.insert s) = (ix.core.insertKeyed s (ix.keying s)).map ix.withCore
      fun id => .entry (id.map ix.core.handle) := by
  cases ix <;> rfl

theorem perform_insertAll (solutions : List Solution) :
    ix.perform (.insertAll solutions) =
      (ix.core.insertAllKeyed (ix.keyed solutions)).map ix.withCore .intake := by
  cases ix <;> rfl

/-- What was stored before makes no difference to the keys of what is stored next. -/
theorem perform_insertAll_withCore {core : Index} (h : core.config = ix.core.config)
    (solutions : List Solution) : (ix.withCore core).perform (.insertAll solutions) =
      (core.insertAllKeyed (ix.keyed solutions)).map ix.withCore .intake := by
  cases ix with
  | base ix =>
    have hkeyed : (base core).keyed solutions = (base ix).keyed solutions :=
      congrArg (fun c : Config => solutions.map fun s => (c.keying s, s)) h
    rw [withCore, perform_insertAll, hkeyed]
    rfl
  | shared ix => rfl

/-- To store many solutions at once is to store the first one and then the others. -/
theorem perform_insertAll_cons (s : Solution) (solutions : List Solution) :
    let first := ix.perform (.insert s)
    let others := first.state.perform (.insertAll solutions)
    (ix.perform (.insertAll (s :: solutions))).state = others.state ∧
      (ix.perform (.insertAll (s :: solutions))).counters = first.counters + others.counters := by
  have hconfig := ix.core.config_insertKeyed s (ix.keying s)
  rw [perform_insert, perform_insertAll, keyed, List.map_cons, ← keyed, Index.insertAllKeyed_cons]
  dsimp only [Step.map_state, Step.map_counters, Step.andThen_state, Step.andThen_counters]
  rw [perform_insertAll_withCore ix hconfig]
  exact ⟨rfl, rfl⟩

/-- A batch does to the index and to the counters what its solutions do one by one. -/
theorem perform_insertAll_eq_run (solutions : List Solution) :
    (ix.perform (.insertAll solutions)).state = (ix.run (solutions.map .insert)).state ∧
      (ix.perform (.insertAll solutions)).counters =
        (ix.run (solutions.map .insert)).counters := by
  induction solutions generalizing ix with
  | nil =>
    rw [perform_insertAll]
    exact ⟨ix.withCore_core, rfl⟩
  | cons s solutions ih =>
    obtain ⟨hstate, hcounters⟩ := ix.perform_insertAll_cons s solutions
    obtain ⟨ihstate, ihcounters⟩ := ih (ix.perform (.insert s)).state
    rw [hstate, hcounters, ihstate, ihcounters]
    exact ⟨rfl, rfl⟩

/-- The division into batches cannot be seen. In whatever state an index is, a batch leaves it
as its solutions would if they were stored one by one, and raises the counters by as much. The
reply tells how many of them have a key and how many do not. Two batches in a row do what both
would do as one batch, and the replies to them add up to the reply to that. -/
theorem insertAll_batches (xs ys : List Solution) :
    let batch := ix.perform (.insertAll xs)
    let single := ix.run (xs.map .insert)
    let next := batch.state.perform (.insertAll ys)
    let both := ix.perform (.insertAll (xs ++ ys))
    (batch.state = single.state ∧ batch.counters = single.counters) ∧
    batch.answer = .intake ⟨xs.countP fun s => !(ix.keying s).isMissing,
      xs.countP fun s => (ix.keying s).isMissing⟩ ∧
    both.state = next.state ∧ both.counters = batch.counters + next.counters ∧
    ∃ m n, batch.answer = .intake m ∧ next.answer = .intake n ∧ both.answer = .intake (m + n) := by
  intro batch single next both
  let first := ix.core.insertAllKeyed (ix.keyed xs)
  have hbatch : batch = first.map ix.withCore .intake := ix.perform_insertAll xs
  have hnext : next = (first.state.insertAllKeyed (ix.keyed ys)).map ix.withCore .intake := by
    rw [← perform_insertAll_withCore ix (ix.core.config_insertAllKeyed _)]
    exact congrArg (fun step : Step AnyIndex Reply => step.state.perform (.insertAll ys)) hbatch
  have hboth : both = (first.andThen fun core n =>
      (core.insertAllKeyed (ix.keyed ys)).map id (n + ·)).map ix.withCore .intake := by
    rw [← Index.insertAllKeyed_append, keyed, keyed, ← List.map_append]
    exact ix.perform_insertAll (xs ++ ys)
  have hanswer : first.answer = ⟨xs.countP fun s => !(ix.keying s).isMissing,
      xs.countP fun s => (ix.keying s).isMissing⟩ := by
    rw [Index.insertAllKeyed_answer, keyed, List.countP_map, List.countP_map]
    rfl
  refine ⟨ix.perform_insertAll_eq_run xs, ?_, ?_⟩
  · rw [hbatch, ← hanswer]
    rfl
  · rw [hbatch, hnext, hboth]
    exact ⟨rfl, rfl, _, _, rfl, rfl, rfl⟩

end AnyIndex

end HashJoin
