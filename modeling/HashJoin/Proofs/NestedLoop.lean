import HashJoin.Proofs.Evaluation
import HashJoin.Proofs.Merge

/-! Joins by two nested loops. Every probe row is compared with every build row: they pair
up when they have the same key and a merge, and `minus` wants a variable bound in both.
No index is there to find the rows and no hits are counted to tell which of them were
paired. An operator gives out what the nested loops give; only the rows that it gives out
unmerged come key by key and not in the order of the build side. -/

namespace HashJoin

namespace Config

variable {c : Config} {op : Operator} {b p : Solution}

/-- Whether a build row and a probe row pair up. -/
def pairs (c : Config) (op : Operator) (b p : Solution) : Bool :=
  c.alike b p && (b.merge? p).isSome && (op ≠ .minus || b.sharesVariable p)

theorem pairs_iff : c.pairs op b p = true ↔
    (∃ k, c.keying b = .key k ∧ c.keying p = .key k) ∧ (∃ m, b.merge? p = some m) ∧
      (op = .minus → ∃ v, b.isBound v = true ∧ p.isBound v = true) := by
  rw [pairs, Bool.and_eq_true, Bool.and_eq_true, alike_iff, Option.isSome_iff_exists, and_assoc,
    Bool.or_eq_true, decide_eq_true_iff, ← Solution.sharesVariable_iff, ← imp_iff_not_or]

/-- The merges of all pairs, by the position of the probe row and then of the build row. -/
def merges (c : Config) (op : Operator) (build probe : List Solution) : List Solution :=
  probe.flatMap fun p => (build.filter (c.pairs op · p)).filterMap (·.merge? p)

/-- The build rows that pair up with some probe row. -/
def paired (c : Config) (op : Operator) (build probe : List Solution) : List Solution :=
  build.filter fun b => probe.any (c.pairs op b)

/-- The build rows that pair up with no probe row. -/
def unpaired (c : Config) (op : Operator) (build probe : List Solution) : List Solution :=
  build.filter fun b => !probe.any (c.pairs op b)

/-! ### Pairs are what an index matches -/

theorem meets_eq_pairs (h : op ≠ .distinct) (b p : Solution) :
    c.meets op b p = c.pairs op b p := by
  rw [meets, meet?_eq, pairs]
  cases c.alike b p with
  | false => rfl
  | true =>
    cases op with
    | distinct => exact absurd rfl h
    | minus =>
      rw [if_pos rfl, Operator.match?]
      cases b.sharesVariable p <;> simp
    | inner | optional | semi | anti => simp [Operator.match?]

theorem meet?_eq_merge? (h : op.emitsMerges = true) (b p : Solution) :
    c.meet? op b p = if c.pairs op b p then b.merge? p else none := by
  have hmatch : op.match? b p = b.merge? p := by
    cases op with
    | inner | optional => rfl
    | semi | anti | minus | distinct => contradiction
  have hop : op ≠ .minus := fun e => by simp [e, Operator.emitsMerges] at h
  rw [meet?_eq, hmatch, pairs, decide_eq_true hop, Bool.true_or, Bool.and_true]
  cases c.alike b p with
  | false => rfl
  | true => cases b.merge? p <;> rfl

theorem merges_eq (h : op.emitsMerges = true) (build probe : List Solution) :
    c.merges op build probe = probe.flatMap fun p => build.filterMap (c.meet? op · p) := by
  refine List.flatMap_congr fun p _ => ?_
  rw [List.filterMap_filter]
  exact List.filterMap_congr fun b _ => (meet?_eq_merge? h b p).symm

/-- A row that pairs up has a key. -/
theorem hasKey_of_pairs (h : c.pairs op b p = true) : c.hasKey b = true := by
  obtain ⟨k, hk, -⟩ := (pairs_iff.1 h).1
  exact hasKey_iff.2 ⟨k, hk⟩

theorem hasKey_of_any_pairs {probe : List Solution} (h : probe.any (c.pairs op b) = true) :
    c.hasKey b = true := by
  obtain ⟨p, -, hp⟩ := List.any_eq_true.1 h
  exact hasKey_of_pairs hp

theorem swept_matched (h : op ≠ .distinct) (build probe : List Solution) :
    (build.filter c.hasKey).filter (c.isSwept op probe .matched) = c.paired op build probe := by
  rw [List.filter_filter, paired]
  refine List.filter_congr fun b _ => ?_
  rw [isSwept, funext (meets_eq_pairs h b)]
  cases hb : probe.any (c.pairs op b) with
  | false => rfl
  | true => rw [hasKey_of_any_pairs hb, Bool.and_true]

theorem swept_unmatched (h : op ≠ .distinct) (hc : c.policy = .index)
    (build probe : List Solution) :
    (build.filter c.hasKey).filter (c.isSwept op probe .unmatched) = c.unpaired op build probe := by
  rw [List.filter_filter, unpaired]
  refine List.filter_congr fun b _ => ?_
  rw [isSwept, funext (meets_eq_pairs h b), hasKey_of_index hc, Bool.and_true]

end Config

namespace Operator

variable {op : Operator} (c : Config) (build probe : List Solution)

/-- The configuration that the keys of an operator are formed under. -/
def joinConfig (op : Operator) (c : Config) : Config :=
  match op with
  | optional | anti | minus | distinct => { c with policy := .index }
  | inner | semi => c

theorem upgraded_eq (op : Operator) (c : Config) : c.upgraded op = op.joinConfig c := by
  cases op <;> rfl

/-- The merged rows of an operator under the configuration of its keys. -/
def mergedRows (op : Operator) (c : Config) (build probe : List Solution) : List Solution :=
  match op with
  | inner | optional => c.merges op build probe
  | semi | anti | minus | distinct => []

/-- The build rows that an operator gives out unmerged. -/
def buildRows (op : Operator) (c : Config) (build probe : List Solution) : List Solution :=
  match op with
  | optional | anti | minus => c.unpaired op build probe
  | semi => c.paired op build probe
  | inner | distinct => []

theorem evaluate_of_ne_distinct (h : op ≠ .distinct) :
    op.evaluate c build probe = op.evaluateSides (op.joinConfig c) build probe := by
  rw [← upgraded_eq]
  cases op with
  | distinct => exact absurd rfl h
  | inner | optional | semi | anti | minus => rfl

theorem evaluate_head (h : op ≠ .distinct) :
    (op.evaluate c build probe).head = op.mergedRows (op.joinConfig c) build probe := by
  rw [evaluate_of_ne_distinct c build probe h, evaluateSides_head]
  cases op with
  | inner | optional => exact (Config.merges_eq rfl build probe).symm
  | semi | anti | minus | distinct => rfl

theorem evaluate_tail (h : op ≠ .distinct) :
    (op.joinConfig c).Regroups (op.buildRows (op.joinConfig c) build probe)
      (op.evaluate c build probe).tail := by
  rw [evaluate_of_ne_distinct c build probe h]
  cases op with
  | inner => exact ⟨[], List.nodup_nil, fun _ hs => (nomatch hs), rfl⟩
  | distinct => exact absurd rfl h
  | semi =>
    rw [buildRows, ← Config.swept_matched h]
    exact evaluateSides_tail _ _ build probe rfl
  | optional | anti | minus =>
    rw [buildRows, ← Config.swept_unmatched h rfl]
    exact evaluateSides_tail _ _ build probe rfl

/-- The merged rows and the build rows are all that is given out. -/
theorem output_perm_rows (h : op ≠ .distinct) : (op.evaluate c build probe).output.Perm
    (op.mergedRows (op.joinConfig c) build probe ++
      op.buildRows (op.joinConfig c) build probe) := by
  rw [Evaluation.output, evaluate_head c build probe h]
  exact (evaluate_tail c build probe h).perm.append_left _

/-- `anti` and `minus` give out the build rows that pair up with no probe row. -/
theorem output_perm_unpaired (h : op = .anti ∨ op = .minus) :
    (op.evaluate c build probe).output.Perm ((op.joinConfig c).unpaired op build probe) := by
  rcases h with rfl | rfl <;> exact output_perm_rows c build probe (by decide)

/-- An operator gives out the merges of the nested loops in their order, followed by its
build rows: each as often as it was given, those of one key in the order in which they
were given. Only the order of the keys is left to the map. -/
theorem evaluate_eq_nested_loops (h : op ≠ .distinct) : ∃ listed : List Solution,
    (op.evaluate c build probe).output =
        op.mergedRows (op.joinConfig c) build probe ++ listed ∧
      listed.Perm (op.buildRows (op.joinConfig c) build probe) ∧
      (∀ k, listed.filter ((op.joinConfig c).forms k) =
        (op.buildRows (op.joinConfig c) build probe).filter ((op.joinConfig c).forms k)) ∧
      (op.joinConfig c).Regroups (op.buildRows (op.joinConfig c) build probe) listed := by
  have hgroups := evaluate_tail c build probe h
  refine ⟨(op.evaluate c build probe).tail, ?_, hgroups.perm, hgroups.filter_forms, hgroups⟩
  rw [Evaluation.output, evaluate_head c build probe h]

/-- Rows that leave the join variable unbound pair up with each other, whatever the
configuration says, since `optional` has to store every row. -/
theorem evaluate_eq_nested_loops_unbound :
    let one := Solution.ofBindings [(⟨"x"⟩, .integer 1)]
    let other := Solution.ofBindings [(⟨"y"⟩, .integer 2)]
    let c : Config := ⟨⟨[⟨"x"⟩], by decide, by decide⟩, .reject⟩
    let rows := optional.buildRows { c with policy := .index } [one, .empty, one] [other]
    optional ≠ distinct ∧ ∃ listed : List Solution,
      (optional.evaluate c [one, .empty, one] [other]).output =
        optional.mergedRows { c with policy := .index } [one, .empty, one] [other] ++ listed ∧
      listed.Perm rows ∧
      (∀ k, listed.filter (Config.forms { c with policy := .index } k) =
        rows.filter (Config.forms { c with policy := .index } k)) ∧
      Config.Regroups { c with policy := .index } rows listed := by
  intro one other c rows
  have hne : optional ≠ distinct := by decide
  exact ⟨hne, evaluate_eq_nested_loops c [one, .empty, one] [other] hne⟩

end Operator

end HashJoin
