import HashJoin.Proofs.Accounting
import HashJoin.Proofs.NestedLoop

/-! What a whole operator counts. The counters are raised in three places: the build side is
counted when it has gone in, every probe counts its look-up and one hit for each entry that it
meets, and the scan counts what it gives out unmatched. None of them counts pairs. Added up
they are the numbers of rows with and without a key and of the pairs that two nested loops
would find. -/

namespace HashJoin

namespace Listing

/-- Pairs may be counted row by row of the second list. -/
theorem countP_product {α β : Type} (p : α × β → Bool) (as : List α) (bs : List β) :
    (as ×ˢ bs).countP p = (bs.map fun b => as.countP fun a => p (a, b)).sum := by
  let f (a : α) (b : β) : Option Unit := if p (a, b) then some () else none
  have hf : ∀ a b, (f a b).isSome = p (a, b) := by
    intro a b
    dsimp only [f]
    cases p (a, b) <;> rfl
  have hswap := (flatMap_filterMap_swap f as bs).length_eq
  simp only [List.length_flatMap, List.length_filterMap_eq_countP, hf] at hswap
  have hproduct : as ×ˢ bs = as.flatMap fun a => bs.map (a, ·) := rfl
  rw [hswap, hproduct, List.countP_flatMap]
  simp only [Function.comp_def, List.countP_map]

end Listing

namespace Index

variable {ix : Index} {l : Log}

/-! ### The build side -/

theorem Follows.counters_insertAll (h : ix.Follows l) (build : List Solution) :
    (ix.insertAll build).counters =
      { inserts := build.countP l.config.hasKey
        rejected := build.countP fun s => !l.config.hasKey s } := by
  have hcounters : (ix.insertAll build).counters =
      { inserts := (ix.insertAll build).answer.stored
        rejected := (ix.insertAll build).answer.rejected } := rfl
  rw [hcounters, h.insertAll_answer]
  simp only [Config.hasKey, Bool.not_not]
  rfl

/-! ### The probe side -/

theorem Follows.counters_join (h : ix.Follows l) (op : Operator) (probe : Solution) :
    (ix.join op probe).counters =
      { probes := if l.config.hasKey probe then 1 else 0
        hits := if op.countsHits then l.solutions.countP (l.config.meets op · probe) else 0 } := by
  obtain ⟨h, rfl⟩ := h
  have hmatched : (ix.matched op probe).length =
      ix.log.solutions.countP (ix.log.config.meets op · probe) := by
    rw [matched, h.matching_probe, Log.map_fst_met, List.length_map, ← List.countP_eq_length_filter,
      Log.solutions, List.countP_map]
    rfl
  rw [h.counters_join, ← hmatched, log_config]
  cases op.countsHits <;> rfl

/-- Probes count their keys, and each of them counts the solutions that it meets. -/
theorem Follows.counters_joinAll (h : ix.Follows l) (op : Operator) (probe : List Solution) :
    (Step.each (fun ix p => ix.join op p) ix probe).counters =
      { probes := probe.countP l.config.hasKey
        hits := if op.countsHits then
          (l.solutions ×ˢ probe).countP fun r => l.config.meets op r.1 r.2 else 0 } := by
  rw [Listing.countP_product]
  induction probe generalizing ix l with
  | nil => cases op.countsHits <;> rfl
  | cons p probe ih =>
    -- a probe changes hits alone, so the probes after it meet what they would have met before
    have hrest := ih (h.join op p).1
    rw [Log.config_join, Log.solutions_join] at hrest
    rw [Step.each_cons, Step.andThen_counters, Step.map_counters, hrest, h.counters_join,
      List.countP_cons, List.map_cons, List.sum_cons, Nat.add_comm (probe.countP _)]
    cases op.countsHits <;> rfl

/-! ### Streams -/

theorem config_insertNew (ix : Index) (s : Solution) : (ix.insertNew s).state.config = ix.config :=
  insertNewKeyed_keeps (P := fun ix' => ix'.config = ix.config) (fun h _ _ => h) rfl s _

/-- A solution without a key is not looked for. -/
theorem counters_insertNew (ix : Index) (s : Solution) : (ix.insertNew s).counters =
    { inserts := if (ix.insertNew s).answer then 1 else 0
      rejected := if ix.config.hasKey s then 0 else 1
      probes := if ix.config.hasKey s then 1 else 0 } := by
  rw [insertNew, Config.hasKey, keying]
  cases ix.config.keying s with
  | missing v => rfl
  | key k =>
    rw [insertNewKeyed]
    split <;> rfl

/-- Of a stream those solutions are counted as stored that are given out. -/
theorem counters_insertNewAll (ix : Index) (stream : List Solution) :
    (Step.each Index.insertNew ix stream).counters =
      { inserts := ((stream.zip (Step.each Index.insertNew ix stream).answer).filterMap
          fun p => if p.2 then some p.1 else none).length
        rejected := stream.countP fun s => !ix.config.hasKey s
        probes := stream.countP ix.config.hasKey } := by
  induction stream generalizing ix with
  | nil => rfl
  | cons s stream ih =>
    rw [Step.each_cons, Step.andThen_counters, Step.map_counters, ih, counters_insertNew,
      config_insertNew, Step.andThen_answer, Step.map_answer, List.zip_cons_cons,
      List.filterMap_cons, List.countP_cons, List.countP_cons]
    cases (ix.insertNew s).answer <;> cases ix.config.hasKey s <;> ext <;>
      simp [Nat.add_comm]

end Index

namespace Operator

variable (op : Operator) (c : Config) (build probe : List Solution)

/-- Only scans for unmatched solutions are counted. -/
theorem counters_sweep (ix : Index) : (op.sweep ix).counters =
    { unmatchedEmitted :=
        if op = .optional ∨ op = .anti ∨ op = .minus then (op.sweep ix).answer.length else 0 } := by
  cases op <;> rfl

theorem evaluateSides_counters : (op.evaluateSides c build probe).counters =
    { inserts := build.countP c.hasKey
      rejected := build.countP fun b => !c.hasKey b
      probes := probe.countP c.hasKey
      hits := if op.countsHits then (build.filter c.hasKey ×ˢ probe).countP fun r =>
        c.meets op r.1 r.2 else 0
      unmatchedEmitted := if op = .optional ∨ op = .anti ∨ op = .minus then
        (op.evaluateSides c build probe).tail.length else 0 } := by
  have hnew := Index.follows_new 0 c
  have hprobed := (hnew.insertAll build).counters_joinAll op probe
  have hstored : Log.solutions { owner := 0, config := c } = [] := rfl
  rw [Log.config_insertAll, Log.solutions_insertAll, hstored, List.nil_append] at hprobed
  rw [evaluateSides]
  dsimp only
  rw [hnew.counters_insertAll, hprobed, counters_sweep]
  ext <;> simp

/-- A row without a key is in no pair. -/
theorem countP_meets (h : op ≠ .distinct) :
    (build.filter c.hasKey ×ˢ probe).countP (fun r => c.meets op r.1 r.2) =
      (build ×ˢ probe).countP fun r => c.pairs op r.1 r.2 := by
  rw [Listing.countP_product, Listing.countP_product]
  refine congrArg List.sum (List.map_congr_left fun p _ => ?_)
  rw [List.countP_filter]
  refine List.countP_congr fun b _ => ?_
  rw [Config.meets_eq_pairs h, Bool.and_eq_true, and_iff_left_iff_imp]
  exact Config.hasKey_of_pairs

theorem evaluateStream_counters (stream : List Solution) : (evaluateStream c stream).counters =
    { inserts := (evaluateStream c stream).output.length
      rejected := stream.countP fun s => !c.hasKey s
      probes := stream.countP c.hasKey } := by
  have houtput : (evaluateStream c stream).output = (evaluateStream c stream).head :=
    List.append_nil _
  rw [houtput]
  exact (Index.new 0 c).counters_insertNewAll stream

/-- The counters of an operator are exact. Build rows are counted by whether they have a key,
and so are the probe rows that have one. An operator that is to know which of its build rows
pair up counts the pairs of both sides, of whatever multiplicity; one that gives out those that
do not counts them. The rows that come out unmerged are those of the nested loops. `distinct`
looks for every row of its stream and stores those that it gives out. -/
theorem evaluate_counts (op : Operator) (c : Config) (build probe : List Solution) :
    let e := op.evaluate c build probe
    let c' := op.joinConfig c
    e.tail.Perm (op.buildRows c' build probe) ∧
    e.counters =
      if op = .distinct then { inserts := e.output.length, probes := build.length + probe.length }
      else
        { inserts := build.countP c'.hasKey
          rejected := build.countP fun b => !c'.hasKey b
          probes := probe.countP c'.hasKey
          hits := if op = .inner then 0
            else (build ×ˢ probe).countP fun r => c'.pairs op r.1 r.2
          removals := 0
          bucketsDropped := 0
          unmatchedEmitted :=
            if op = .optional ∨ op = .anti ∨ op = .minus then e.tail.length else 0 } := by
  intro e c'
  by_cases h : op = .distinct
  · subst h
    -- under the policy of `distinct` every row has a key, so none is passed over uncounted
    have hkeys : c'.hasKey = fun _ => true := funext (Config.hasKey_of_index rfl)
    have hcounters := evaluateStream_counters c' (build ++ probe)
    simp only [hkeys, Bool.not_true, List.countP_true, List.countP_false, Function.const_apply,
      List.length_append] at hcounters
    rw [if_pos rfl]
    exact ⟨.refl [], hcounters⟩
  · have hsides : e = op.evaluateSides c' build probe := evaluate_of_ne_distinct c build probe h
    refine ⟨(evaluate_tail c build probe h).perm, ?_⟩
    rw [if_neg h, hsides, evaluateSides_counters, countP_meets _ _ _ _ h]
    cases op with
    | distinct => contradiction
    | inner | optional | semi | anti | minus => rfl

end Operator

end HashJoin
