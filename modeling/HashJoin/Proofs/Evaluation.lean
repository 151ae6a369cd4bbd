import HashJoin.Evaluation
import HashJoin.Proofs.Keying
import HashJoin.Proofs.Log.Refinement

/-! What a whole operator gives out, read off its log. The build side becomes a log without
hits. A probe meets the build solutions of its key in the order of the build side and adds
to their hits, so that in the end the hits of a record are the number of probes that met
it, and the scan reads off which build solutions were met. A stream that is only to be
freed of repetitions is compared with the log of what came before. -/

namespace HashJoin

namespace Config

/-- The rows are listed key by key, in some order of the keys. -/
def Regroups (c : Config) (rows listed : List Solution) : Prop :=
  ∃ keys : List Key, keys.Nodup ∧ (∀ s ∈ rows, ∃ k ∈ keys, c.forms k s = true) ∧
    listed = keys.flatMap fun k => rows.filter (c.forms k)

namespace Regroups

variable {c : Config} {rows listed : List Solution}

/-- Every row keeps its multiplicity. -/
theorem perm (h : c.Regroups rows listed) : listed.Perm rows := by
  obtain ⟨keys, hn, hc, rfl⟩ := h
  apply Listing.flatMap_filter_perm
  · intro k k' s h h'
    exact forms_unique h h'
  · exact hn
  · exact hc

/-- Rows of one key keep their order. -/
theorem filter_forms (h : c.Regroups rows listed) (k : Key) :
    listed.filter (c.forms k) = rows.filter (c.forms k) := by
  obtain ⟨keys, hn, hc, rfl⟩ := h
  apply Listing.filter_flatMap_filter
  · intro k k' s h h'
    exact forms_unique h h'
  · exact hn
  · exact hc

end Regroups

theorem meet?_eq (c : Config) (op : Operator) (b p : Solution) :
    c.meet? op b p = if c.alike b p then op.match? b p else none := by
  rw [alike_comm, meet?, alike]
  cases c.keying p with
  | key k => rfl
  | missing v => rfl

/-- A solution without a key meets nothing. -/
theorem meet?_eq_none {c : Config} {s : Solution} (h : c.hasKey s = false) (op : Operator)
    (probe : Solution) : c.meet? op s probe = none := by
  rw [meet?_eq, alike_eq_false h]
  rfl

/-- Whether a build solution belongs to the class once all probes are done. -/
def isSwept (c : Config) (op : Operator) (probe : List Solution) : HitClass → Solution → Bool
  | .unmatched, s => !probe.any (c.meets op s)
  | .matched, s => probe.any (c.meets op s)

end Config

namespace Log

variable {l : Log} {op : Operator}

def solutions (l : Log) : List Solution := l.records.map Record.solution

/-! ### The build side -/

theorem solutions_insert (l : Log) (s : Solution) :
    (l.insert s).solutions = l.solutions ++ [s].filter l.config.hasKey := by
  rw [insert, List.filter_singleton, Config.hasKey]
  cases (l.config.keying s).isMissing with
  | true => exact (List.append_nil _).symm
  | false => exact List.map_append

theorem solutions_insertAll (l : Log) (build : List Solution) :
    (l.insertAll build).solutions = l.solutions ++ build.filter l.config.hasKey := by
  induction build generalizing l with
  | nil => exact (List.append_nil _).symm
  | cons s build ih =>
    have hstep : (s :: build).filter l.config.hasKey =
        [s].filter l.config.hasKey ++ build.filter l.config.hasKey := List.filter_append [s] build
    rw [hstep, ← List.append_assoc, ← solutions_insert]
    exact (ih (l.insert s)).trans (by rw [config_insert])

/-- Storing gives no hits. -/
theorem hits_insertAll {build : List Solution} (h : ∀ r ∈ l.records, r.hits = 0) :
    ∀ r ∈ (l.insertAll build).records, r.hits = 0 := by
  induction build generalizing l with
  | nil => exact h
  | cons s build ih =>
    apply ih
    intro r hr
    rw [insert] at hr
    split at hr
    · exact h r hr
    · rcases List.mem_append.1 hr with hr | hr
      · exact h r hr
      · rw [List.mem_singleton.1 hr]

/-! ### Streams -/

/-- Whether a solution is stored when only new ones are. -/
def isNew (l : Log) (s : Solution) : Bool := l.config.hasKey s && !l.holds s

theorem insertNew_eq (l : Log) (s : Solution) :
    l.insertNew s = if l.isNew s then l.append s else l := by
  rw [insertNew, insert, isNew, Config.hasKey]
  cases l.holds s <;> cases (l.config.keying s).isMissing <;> rfl

theorem isNew_append (l : Log) (s t : Solution) :
    (l.append s).isNew t = (!t == s && l.isNew t) := by
  have hholds : (l.append s).holds t = (l.holds t || t == s) := by
    simp [holds, append, Bool.beq_eq_decide_eq, eq_comm]
  rw [isNew, hholds, Bool.not_or, ← Bool.and_assoc, Bool.and_comm]
  rfl

/-! ### The probe side -/

theorem config_join (l : Log) (op : Operator) (probe : Solution) :
    (l.join op probe).config = l.config := by
  rw [join]
  split <;> rfl

theorem solutions_join (l : Log) (op : Operator) (probe : Solution) :
    (l.join op probe).solutions = l.solutions := by
  rw [join]
  split
  · exact List.map_map
  · rfl

/-- What a probe meets depends on the solutions alone. -/
theorem outcome_merged (l : Log) (op : Operator) (probe : Solution) :
    (l.outcome op probe).merged =
      if op.emitsMerges then l.solutions.filterMap (l.config.meet? op · probe) else [] := by
  rw [solutions, List.filterMap_map]
  rfl

/-- The log after many probes. -/
def joinAll (l : Log) (op : Operator) (probe : List Solution) : Log :=
  probe.foldl (fun l p => l.join op p) l

/-- The hits of a record count the probes that met it. -/
theorem joinAll_eq (h : op.countsHits = true) (l : Log) (probe : List Solution) :
    l.joinAll op probe =
      l.recount fun r => r.hits + probe.countP (l.config.meets op r.solution) := by
  induction probe generalizing l with
  | nil => exact (recount_eq_self fun r _ => rfl).symm
  | cons p probe ih =>
    have hp : l.join op p = l.recount fun r =>
        if l.config.meets op r.solution p then r.hits + 1 else r.hits := by
      rw [join, if_pos h]
    refine (ih (l.join op p)).trans ?_
    rw [config_join, hp, recount_recount]
    refine recount_congr fun r _ => ?_
    simp only [List.countP_cons]
    split <;> omega

theorem solutions_joinAll (l : Log) (op : Operator) (probe : List Solution) :
    (l.joinAll op probe).solutions = l.solutions := by
  induction probe generalizing l with
  | nil => rfl
  | cons p probe ih => exact (ih (l.join op p)).trans (l.solutions_join op p)

theorem config_joinAll (l : Log) (op : Operator) (probe : List Solution) :
    (l.joinAll op probe).config = l.config := by
  induction probe generalizing l with
  | nil => rfl
  | cons p probe ih => exact (ih (l.join op p)).trans (l.config_join op p)

/-- In a log that began without hits, a class is told by the probes alone. -/
theorem isIn_joinAll (h : op.countsHits = true) (hits : ∀ r ∈ l.records, r.hits = 0)
    (probe : List Solution) (hitClass : HitClass) :
    ∀ r ∈ (l.joinAll op probe).records,
      r.isIn hitClass = l.config.isSwept op probe hitClass r.solution := by
  rw [joinAll_eq h, recount]
  intro counted hcounted
  obtain ⟨r, hr, rfl⟩ := List.mem_map.1 hcounted
  have hcount : probe.any (l.config.meets op r.solution) =
      decide (0 < probe.countP (l.config.meets op r.solution)) := by
    rw [Bool.eq_iff_iff, decide_eq_true_iff, List.countP_pos_iff, List.any_eq_true]
  cases hitClass with
  | unmatched =>
    simp only [Record.isIn, Config.isSwept, hits r hr, Nat.zero_add, hcount, Nat.pos_iff_ne_zero]
    rw [decide_not, Bool.not_not]
  | matched => simp only [Record.isIn, Config.isSwept, hits r hr, Nat.zero_add, hcount]

end Log

namespace Index

variable {ix : Index} {l : Log}

theorem Follows.joinAll (h : ix.Follows l) (op : Operator) (probe : List Solution) :
    (Step.each (fun ix p => ix.join op p) ix probe).state.Follows (l.joinAll op probe) ∧
      (Step.each (fun ix p => ix.join op p) ix probe).answer.flatMap Matches.merged =
        probe.flatMap fun p => (l.outcome op p).merged := by
  induction probe generalizing ix l with
  | nil => exact ⟨h, rfl⟩
  | cons p probe ih =>
    obtain ⟨hstate, hanswer⟩ := h.join op p
    obtain ⟨hs, ha⟩ := ih hstate
    refine ⟨hs, ?_⟩
    have hsame : ∀ q, ((l.join op p).outcome op q).merged = (l.outcome op q).merged := by
      intro q
      rw [Log.outcome_merged, Log.outcome_merged, Log.solutions_join, Log.config_join]
    simp only [Step.each_cons, Step.andThen_answer, Step.map_answer, List.flatMap_cons, ha, hanswer,
      hsame]

/-- A scan lists the solutions of a class key by key. -/
theorem Follows.scan_regroups (h : ix.Follows l) (hitClass : HitClass) {test : Solution → Bool}
    (ht : ∀ r ∈ l.records, r.isIn hitClass = test r.solution) :
    l.config.Regroups (l.solutions.filter test) (ix.scan hitClass).answer := by
  obtain ⟨h, rfl⟩ := h
  obtain ⟨keys, hk, hs⟩ := h.scan_eq
  refine ⟨keys, hk.nodup_iff.2 (List.nodup_dedup _), ?_, ?_⟩
  · intro s hsol
    obtain ⟨r, hr, rfl⟩ := List.mem_map.1 (List.mem_filter.1 hsol).1
    obtain ⟨k, hf⟩ := h.keyed r hr
    exact ⟨k, hk.mem_iff.2 (Log.mem_keys.2 ⟨r, hr, hf⟩), Config.forms_iff.2 hf⟩
  · rw [scan_answer, Option.getD_none, List.take_length, hs]
    refine List.flatMap_congr fun k _ => ?_
    have hclass : (ix.log.chain k).filter (Record.isIn hitClass) =
        (ix.log.chain k).filter (test ∘ Record.solution) :=
      List.filter_congr fun r hr => ht r (Log.mem_chain.1 hr).1
    have hchain : (ix.log.chain k).map Record.solution =
        ix.log.solutions.filter (ix.log.config.forms k) := by
      rw [Log.solutions, List.filter_map]
      rfl
    rw [hclass, ← List.filter_map, hchain, List.filter_filter, List.filter_filter]
    exact List.filter_congr fun s _ => Bool.and_comm _ _

/-- Of a stream those solutions are new that can be stored, that the log does not hold,
and that did not come before in the stream. -/
theorem Follows.new_of_stream (h : ix.Follows l) (stream : List Solution) :
    ((stream.zip (Step.each Index.insertNew ix stream).answer).filterMap
        fun p => if p.2 then some p.1 else none) = (stream.filter l.isNew).eraseDups := by
  induction stream generalizing ix l with
  | nil => rfl
  | cons s stream ih =>
    have ih := ih (h.insertNew s)
    have hanswer : (ix.insertNew s).answer = l.isNew s := h.insertNew_answer s
    rw [Step.each_cons, Step.andThen_answer, Step.map_answer, List.zip_cons_cons,
      List.filterMap_cons, hanswer, ih, l.insertNew_eq, List.filter_cons]
    cases l.isNew s with
    | false => rfl
    | true =>
      show s :: (stream.filter (l.append s).isNew).eraseDups =
        (s :: stream.filter l.isNew).eraseDups
      rw [List.eraseDups_cons, List.filter_filter]
      have hrest : (l.append s).isNew = fun t => !t == s && l.isNew t := by
        funext t
        exact l.isNew_append s t
      rw [hrest]

end Index

namespace Operator

variable (op : Operator) (c : Config) (build probe : List Solution)

/-- What comes out while the probes are matched. -/
theorem evaluateSides_head : (op.evaluateSides c build probe).head =
    if op.emitsMerges then probe.flatMap fun p => build.filterMap (c.meet? op · p) else [] := by
  have hbuilt := (Index.follows_new 0 c).insertAll build
  refine (hbuilt.joinAll op probe).2.trans ?_
  simp only [Log.outcome_merged, Log.solutions_insertAll, Log.config_insertAll]
  cases op.emitsMerges with
  | false => simp
  | true =>
    simp only [if_true]
    refine List.flatMap_congr fun p _ => ?_
    rw [List.filterMap_append, List.filterMap_filter]
    refine List.filterMap_congr fun s _ => ?_
    cases hs : c.hasKey s with
    | true => rfl
    | false => exact (Config.meet?_eq_none hs op p).symm

/-- What the scan at the end gives out. -/
theorem evaluateSides_tail {hitClass : HitClass} (h : op.sweptClass? = some hitClass) :
    c.Regroups ((build.filter c.hasKey).filter (c.isSwept op probe hitClass))
      (op.evaluateSides c build probe).tail := by
  have hcounts : op.countsHits = true := by
    cases op with
    | inner | distinct => contradiction
    | optional | semi | anti | minus => rfl
  have hbuilt := (Index.follows_new 0 c).insertAll build
  have hzero : ∀ r ∈ (Log.insertAll { owner := 0, config := c } build).records, r.hits = 0 :=
    Log.hits_insertAll fun _ hr => nomatch hr
  have hclass := Log.isIn_joinAll hcounts hzero probe hitClass
  have hscan := (hbuilt.joinAll op probe).1.scan_regroups hitClass hclass
  rw [Log.config_joinAll, Log.config_insertAll, Log.solutions_joinAll, Log.solutions_insertAll]
    at hscan
  have htail : (op.evaluateSides c build probe).tail =
      ((Step.each (fun ix p => ix.join op p) ((Index.new 0 c).insertAll build).state
        probe).state.scan hitClass).answer := by
    rw [evaluateSides, sweep, h]
  rw [htail]
  exact hscan

/-- A stream comes out in its order, each solution where it stands first. -/
theorem evaluateStream_head (stream : List Solution) :
    (evaluateStream c stream).head = (stream.filter c.hasKey).eraseDups := by
  refine ((Index.follows_new 0 c).new_of_stream stream).trans ?_
  refine congrArg _ (List.filter_congr fun s _ => ?_)
  exact Bool.and_true _

/-- `distinct` reads the build side and then the probe side as one stream. -/
theorem evaluate_distinct :
    (distinct.evaluate c build probe).output = (build ++ probe).eraseDups := by
  have hall : (build ++ probe).filter (c.upgraded distinct).hasKey = build ++ probe :=
    List.filter_eq_self.2 fun s _ => Config.hasKey_of_index rfl s
  have htail : (distinct.evaluate c build probe).tail = [] := rfl
  rw [Evaluation.output, htail, List.append_nil, evaluate, evaluateStream_head, hall]

end Operator

end HashJoin
