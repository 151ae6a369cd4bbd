import HashJoin.Proofs.Membership

/-! One probe. It looks at the bucket of its key, tests the entries there in the order of their
arrival, and marks those that pass if the operator asks for it. A mark can be refused, but never
here: what lies in a bucket is live and belongs to the index. So the hits of the entries that
pass rise by one, and nothing else moves; what the probe gives out is read off the same entries. -/

namespace HashJoin

namespace Operator

variable {op : Operator} {candidate probe : Solution}

/-- The test that a stored solution has to pass. The two must be equal for `distinct`; for the
other operators they must have a merge, and for `minus` also share a bound variable. -/
def passes (op : Operator) (candidate probe : Solution) : Bool :=
  match op with
  | distinct => candidate = probe
  | minus => candidate.sharesVariable probe && (candidate.merge? probe).isSome
  | inner | optional | semi | anti => (candidate.merge? probe).isSome

theorem isSome_match? : (op.match? candidate probe).isSome = op.passes candidate probe := by
  cases op with
  | distinct =>
    by_cases h : candidate = probe <;> simp [match?, passes, h]
  | minus =>
    cases h : candidate.sharesVariable probe <;> simp [match?, passes, h]
  | inner | optional | semi | anti => rfl

theorem match?_of_emitsMerges (h : op.emitsMerges = true) :
    op.match? candidate probe = candidate.merge? probe := by
  cases op with
  | inner | optional => rfl
  | semi | anti | minus | distinct => contradiction

theorem emitsMerges_iff : op.emitsMerges = true ↔ op ∈ [inner, optional] := by
  cases op <;> decide

theorem countsHits_iff : op.countsHits = true ↔ op ∈ [optional, semi, anti, minus] := by
  cases op <;> decide

end Operator

namespace Index

variable {ix : Index} {k : Key} {op : Operator} {probe : Solution} {bucket : Bucket}

/-- The entries of a bucket that pass the test of the operator, in their order. -/
def passing (ix : Index) (op : Operator) (probe : Solution) (bucket : Bucket) : List EntryId :=
  bucket.filter fun id => ix.ledger[id]?.any fun e => op.passes e.solution probe

theorem map_fst_matching (ix : Index) (op : Operator) (probe : Solution) (bucket : Bucket) :
    (ix.matching op probe bucket).map Prod.fst = ix.passing op probe bucket := by
  rw [matching, passing, List.map_filterMap, ← List.filterMap_eq_filter]
  refine List.filterMap_congr fun id _ => ?_
  cases he : ix.ledger[id]? with
  | none => simp [Option.guard, he]
  | some e =>
    have hpasses : (op.match? e.solution probe).isSome = op.passes e.solution probe :=
      Operator.isSome_match?
    rw [Option.bind_some, Option.guard, he, Option.any_some, ← hpasses]
    cases op.match? e.solution probe <;> rfl

/-- Of each entry that passes, the merge with the probe. -/
theorem map_snd_matching (ix : Index) (h : op.emitsMerges = true) (probe : Solution)
    (bucket : Bucket) : ((ix.matching op probe bucket).map Prod.snd).map some =
      (ix.passing op probe bucket).map fun id =>
        ix.ledger[id]?.bind fun e => e.solution.merge? probe := by
  rw [← map_fst_matching, List.map_map, List.map_map]
  refine List.map_congr_left fun found hfound => ?_
  obtain ⟨id, -, hid⟩ := List.mem_filterMap.1 hfound
  obtain ⟨merged, hmerged, rfl⟩ := Option.map_eq_some_iff.1 hid
  simp only [Operator.match?_of_emitsMerges h] at hmerged
  exact hmerged.symm

theorem mark_frame (ix : Index) (e : Handle) :
    (ix.mark e).state = { ix with ledger := (ix.mark e).state.ledger } := by
  rw [mark]
  split <;> rfl

theorem markAll_frame (ix : Index) (ids : List EntryId) :
    (ix.markAll ids).state = { ix with ledger := (ix.markAll ids).state.ledger } := by
  refine Step.each_keeps (P := fun ix' : Index => ix' = { ix with ledger := ix'.ledger })
    (fun ix' id h => ?_) rfl ids
  let marked := (ix'.mark (ix'.handle id)).state.ledger
  have hsame : { ix' with ledger := marked } = { ix with ledger := marked } :=
    congrArg (fun i : Index => { i with ledger := marked }) h
  exact (ix'.mark_frame (ix'.handle id)).trans hsame

/-- A joining probe changes entries only. -/
theorem join_frame (ix : Index) (op : Operator) (probe : Solution) :
    (ix.join op probe).state = { ix with ledger := (ix.join op probe).state.ledger } := by
  rw [Index.join, Step.andThen_state, probe_state, joinBucket_state]
  exact ix.markAll_frame _

theorem probe_answer (ix : Index) (probe : Solution) :
    (ix.probe probe).answer = (ix.keying probe).key?.bind ix.buckets.get? := by
  rw [Index.probe]
  cases ix.keying probe <;> rfl

theorem join_answer (ix : Index) (op : Operator) (probe : Solution) : (ix.join op probe).answer =
    .ofFound op (ix.matching op probe ((ix.probe probe).answer.getD [])) := by
  rw [Index.join, Step.andThen_answer, probe_state, joinBucket_answer]

/-- A probe that comes to no bucket finds nothing and changes nothing. -/
theorem join_of_none (hb : (ix.probe probe).answer = none) (op : Operator) :
    (ix.join op probe).answer = {} ∧ (ix.join op probe).state = ix := by
  rw [Index.join, Step.andThen_answer, Step.andThen_state, probe_state, hb]
  exact ⟨rfl, rfl⟩

theorem Coherent.changes_join_of_some (h : ix.Coherent) (op : Operator)
    (hb : (ix.probe probe).answer = some bucket) : ix.ledger.Changes Entry.hit
      (if op.countsHits then ix.passing op probe bucket else []) (ix.join op probe).state.ledger := by
  have hmatched : ix.matched op probe = ix.passing op probe bucket := by
    rw [matched, hb, Option.getD_some, map_fst_matching]
  rw [← hmatched]
  exact h.changes_join op probe

end Index

namespace AnyIndex

variable {ix : AnyIndex}

/-- A shared index matches a probe as the index inside does. -/
theorem Coherent.perform_join (h : ix.Coherent) (op : Operator) (probe : Solution) :
    ix.perform (.join op probe) = (ix.core.join op probe).map ix.withCore .matches := by
  cases ix with
  | base ix => rfl
  | shared ix =>
    have hconfig : ix.config = ix.core.config := SharedIndex.Follows.config_eq h
    change ((ix.join op probe).map id Reply.matches).map shared id = _
    rw [SharedIndex.join, SharedIndex.probe, SharedIndex.keying, hconfig]
    rfl

end AnyIndex

namespace Session

variable {specs : List IndexSpec} {s : Session}

/-- At any time a probe that has no key, or comes to no bucket, finds nothing and changes nothing
but the counters. In a bucket, whose entries lie in the order of their arrival, it finds those
that pass the test. Their merges are given out for `inner` and `optional`; for the operators that
look at hits afterwards each of them has one hit more, and all else is as it was. -/
theorem run_probes_bucket (h : ofSpecs specs = .ok s) (ops : List Op) {place : Nat} {ix : AnyIndex}
    (hix : (s.run ops).1.indices[place]? = some ix) (op : Operator) (probe : Solution) :
    let last := (s.run ops).1
    let step := last.step (.on place (.join op probe))
    let met := (ix.core.keying probe).key?.bind ix.core.buckets.get?
    (met = none → step = ({ last with counters := step.1.counters }, .matches {})) ∧
    ∀ bucket, met = some bucket → bucket.Pairwise (· < ·) ∧
      let read (id : EntryId) := last.entry? ⟨place, id⟩
      let found := bucket.filter fun id => (read id).any fun e => op.passes e.solution probe
      (∃ merged : List Solution, step.2 = .matches ⟨merged, found.length⟩ ∧
        merged.map some = if op ∈ [.inner, .optional] then
          found.map fun id => (read id).bind fun e => e.solution.merge? probe else []) ∧
      ∃ ledger, ix.core.ledger.Changes Entry.hit
          (if op ∈ [.optional, .semi, .anti, .minus] then found else []) ledger ∧
        step.1 = { last with
          indices := last.indices.set place (ix.withCore { ix.core with ledger })
          counters := step.1.counters } := by
  intro last step met
  obtain ⟨spec, -, hmade⟩ := (madeBy_of_ofSpecs h).run ops place ix hix
  have hcoherent : ix.core.Coherent := hmade.coherent.core.coherent
  have hstep : step = ({ last with
      indices := last.indices.set place (ix.withCore (ix.core.join op probe).state)
      counters := last.counters + (ix.core.join op probe).counters },
      .matches (ix.core.join op probe).answer) :=
    step_on_map hix (hmade.coherent.perform_join op probe)
  have hmet : (ix.core.probe probe).answer = met := ix.core.probe_answer probe
  refine ⟨fun hnone => ?_, fun bucket hsome => ?_⟩
  · obtain ⟨hanswer, hstate⟩ := Index.join_of_none (hmet.trans hnone) op
    rw [hstep, hanswer, hstate, set_withCore_core hix]
  · have hb := hmet.trans hsome
    obtain ⟨k, -, hget⟩ := Option.bind_eq_some_iff.1 hsome
    refine ⟨hcoherent.wellFormed.rising k bucket (Buckets.mem_toList_iff.2 hget), ?_⟩
    intro read found
    have hread : ∀ id, read id = ix.core.ledger[id]? :=
      fun id => entry_of_index (e := ⟨place, id⟩) hix
    have hfound : ix.core.passing op probe bucket = found := by
      simp only [found, hread, Index.passing]
    have hanswer : (ix.core.join op probe).answer =
        .ofFound op (ix.core.matching op probe bucket) := by
      rw [Index.join_answer, hb, Option.getD_some]
    let merged := if op.emitsMerges then (ix.core.matching op probe bucket).map Prod.snd else []
    refine ⟨⟨merged, ?_, ?_⟩, (ix.core.join op probe).state.ledger, ?_, ?_⟩
    · rw [hstep, hanswer, ← hfound, ← Index.map_fst_matching, List.length_map]
      rfl
    · simp only [merged, hread, ← hfound, ← Operator.emitsMerges_iff]
      split
      next hm => exact ix.core.map_snd_matching hm probe bucket
      next => rfl
    · have hchanges := hcoherent.changes_join_of_some op hb
      rw [hfound] at hchanges
      simpa only [← Operator.countsHits_iff] using hchanges
    · rw [hstep, ← ix.core.join_frame]

/-- A bucket has lost its first entry, and of the three that it still has the probe meets two, one
of which was matched before. Another probe comes to no bucket. -/
theorem run_probes_bucket_optional :
    let s (y : Int64) := Solution.ofBindings [(⟨"x"⟩, .integer 1), (⟨"y"⟩, .integer y)]
    let t := Solution.ofBindings [(⟨"x"⟩, .integer 1)]
    let other := Solution.ofBindings [(⟨"x"⟩, .integer 2)]
    let k := Key.ofSlots [some (.integer 1)]
    let specs : List IndexSpec := [⟨true, .forOperator .optional [⟨"x"⟩], some (.empty .ordered)⟩]
    let ops : List Op := [.on 0 (.insertAll [s 1, s 2, s 3, t]), .on 0 (.remove k ⟨0, 0⟩),
      .on 0 (.mark ⟨0, 3⟩)]
    ∃ start ix, ofSpecs specs = .ok start ∧ (start.run ops).1.indices[0]? = some ix ∧
      let last := (start.run ops).1
      let step := last.step (.on 0 (.join .optional (s 2)))
      step.2 = .matches ⟨[s 2, s 2], 2⟩ ∧
      (∃ ledger, ix.core.ledger.Changes Entry.hit [1, 3] ledger ∧ step.1 = { last with
        indices := last.indices.set 0 (ix.withCore { ix.core with ledger })
        counters := step.1.counters }) ∧
      let step' := last.step (.on 0 (.join .optional other))
      step' = ({ last with counters := step'.1.counters }, .matches {}) := by
  intro s t other k specs ops
  have hmade : ∃ start ix, ofSpecs specs = .ok start ∧
      (start.run ops).1.indices[0]? = some ix ∧
      (ix.core.keying (s 2)).key?.bind ix.core.buckets.get? = some [1, 2, 3] ∧
      (ix.core.keying other).key?.bind ix.core.buckets.get? = none ∧
      let read (id : EntryId) := Session.entry? (start.run ops).1 ⟨0, id⟩
      ([1, 2, 3].filter fun id => (read id).any fun e =>
        Operator.optional.passes e.solution (s 2)) = [1, 3] ∧
      [1, 3].map (fun id => (read id).bind fun e => e.solution.merge? (s 2)) =
        [some (s 2), some (s 2)] := by
    subst ops specs k other t s
    exact ⟨_, _, rfl, rfl, by decide +kernel, by decide +kernel, by decide +kernel,
      by decide +kernel⟩
  obtain ⟨start, ix, h, hix, hmet, hunmet, hfound, hmerges⟩ := hmade
  obtain ⟨-, ⟨merged, hreply, hmerged⟩, hchanges⟩ :=
    (run_probes_bucket h ops hix .optional (s 2)).2 _ hmet
  rw [hfound] at hreply hmerged hchanges
  obtain rfl : merged = [s 2, s 2] := by
    refine (List.map_injective_iff.2 fun _ _ => Option.some.inj) ?_
    exact hmerged.trans hmerges
  exact ⟨start, ix, h, hix, hreply, hchanges, (run_probes_bucket h ops hix .optional other).1 hunmet⟩

end Session

end HashJoin
