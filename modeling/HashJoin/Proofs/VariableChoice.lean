import HashJoin.Proofs.NestedLoop

/-! Join variables are only there to find rows faster, as long as every row binds them all.
Rows that can be merged agree on such variables, so they have the same key; and of the rows
of one key those that cannot be merged are sorted out anyway. So two lists of join variables
that every row binds give the same results, and what they give is the join of all compatible
rows. Only the order of the buckets still depends on the keys. -/

namespace HashJoin

namespace Config

variable {c c' : Config} {op : Operator} {b p : Solution} {build probe : List Solution}

/-- Whether a solution binds every join variable. -/
def Binds (c : Config) (s : Solution) : Prop := ∀ v ∈ c.joinVariables.vars, s.isBound v = true

/-- Compatible solutions agree on variables that both bind. -/
theorem alike_of_compatible (hb : c.Binds b) (hp : c.Binds p) (h : b.compatible p) :
    c.alike b p = true := by
  apply alike_of_isBound hb
  intro v hv
  obtain ⟨s, hs⟩ := Option.isSome_iff_exists.1 (hb v hv)
  obtain ⟨t, ht⟩ := Option.isSome_iff_exists.1 (hp v hv)
  rw [hs, ht, Solution.compatible_iff.1 h v s t hs ht]

/-- Whether rows pair up does not depend on join variables that they bind. -/
theorem pairs_of_binds (hb : c.Binds b) (hp : c.Binds p) :
    c.pairs op b p = ((b.merge? p).isSome && (op ≠ .minus || b.sharesVariable p)) := by
  rw [pairs, Solution.isSome_merge?]
  cases h : b.compatible p with
  | false => rw [Bool.and_false]
  | true => rw [alike_of_compatible hb hp h, Bool.true_and]

section Congruence

variable (h : ∀ b ∈ build, ∀ p ∈ probe, c.pairs op b p = c'.pairs op b p)

include h

theorem merges_congr : c.merges op build probe = c'.merges op build probe := by
  refine List.flatMap_congr fun p hp => ?_
  rw [List.filter_congr fun b hb => h b hb p hp]

theorem any_pairs_congr : ∀ b ∈ build, probe.any (c.pairs op b) = probe.any (c'.pairs op b) := by
  intro b hb
  rw [Bool.eq_iff_iff, List.any_eq_true, List.any_eq_true]
  refine exists_congr fun p => and_congr_right fun hp => ?_
  rw [h b hb p hp]

theorem paired_congr : c.paired op build probe = c'.paired op build probe :=
  List.filter_congr (any_pairs_congr h)

theorem unpaired_congr : c.unpaired op build probe = c'.unpaired op build probe :=
  List.filter_congr fun b hb => congrArg (!·) (any_pairs_congr h b hb)

end Congruence

end Config

/-- The merges of all compatible rows. -/
def plainJoin (build probe : List Solution) : List Solution :=
  probe.flatMap fun p => build.filterMap fun b => b.merge? p

namespace Operator

variable {op : Operator} {c c' : Config} {build probe : List Solution}

theorem binds_joinConfig (op : Operator) {s : Solution} (h : c.Binds s) :
    (op.joinConfig c).Binds s := by
  cases op <;> exact h

theorem mergedRows_congr (h : ∀ b ∈ build, ∀ p ∈ probe, c.pairs op b p = c'.pairs op b p) :
    op.mergedRows c build probe = op.mergedRows c' build probe := by
  cases op with
  | inner | optional => exact Config.merges_congr h
  | semi | anti | minus | distinct => rfl

theorem buildRows_congr (h : ∀ b ∈ build, ∀ p ∈ probe, c.pairs op b p = c'.pairs op b p) :
    op.buildRows c build probe = op.buildRows c' build probe := by
  cases op with
  | optional | anti | minus => exact Config.unpaired_congr h
  | semi => exact Config.paired_congr h
  | inner | distinct => rfl

/-- The merged rows are those of the plain join when every row binds the join variables. -/
theorem mergedRows_eq_plainJoin (h : op.emitsMerges = true)
    (hb : ∀ s ∈ build ++ probe, c.Binds s) :
    op.mergedRows c build probe = plainJoin build probe := by
  have hop : op ≠ .minus := fun e => by simp [e, emitsMerges] at h
  have hrows : op.mergedRows c build probe = c.merges op build probe := by
    cases op with
    | inner | optional => rfl
    | semi | anti | minus | distinct => contradiction
  rw [hrows]
  refine List.flatMap_congr fun p hp => ?_
  rw [List.filterMap_filter]
  refine List.filterMap_congr fun b hbuild => ?_
  rw [Config.pairs_of_binds (hb b (List.mem_append_left _ hbuild))
    (hb p (List.mem_append_right _ hp)), decide_eq_true hop, Bool.true_or, Bool.and_true]
  cases b.merge? p <;> rfl

/-- Two evaluations that differ in the order of the buckets at most. What goes out row by
row is the same, and an operator that scans nothing gives out the same list. -/
def SameOutput (op : Operator) (e e' : Evaluation) : Prop :=
  match op with
  | inner | distinct => e.output = e'.output
  | optional => e.head = e'.head ∧ e.tail.Perm e'.tail
  | semi | anti | minus => e.output.Perm e'.output

section Choice

variable (hc : ∀ s ∈ build ++ probe, c.Binds s) (hc' : ∀ s ∈ build ++ probe, c'.Binds s)

include hc hc'

/-- Rows that all bind the variables of two configurations pair up alike under both. -/
theorem pairs_joinConfig_eq (op : Operator) : ∀ b ∈ build, ∀ p ∈ probe,
    (op.joinConfig c).pairs op b p = (op.joinConfig c').pairs op b p := by
  intro b hb p hp
  have hb := List.mem_append_left probe hb
  have hp := List.mem_append_right build hp
  rw [Config.pairs_of_binds (op.binds_joinConfig (hc b hb)) (op.binds_joinConfig (hc p hp)),
    Config.pairs_of_binds (op.binds_joinConfig (hc' b hb)) (op.binds_joinConfig (hc' p hp))]

theorem evaluate_head_eq (h : op ≠ .distinct) :
    (op.evaluate c build probe).head = (op.evaluate c' build probe).head := by
  rw [evaluate_head c build probe h, evaluate_head c' build probe h]
  exact mergedRows_congr (pairs_joinConfig_eq hc hc' op)

theorem evaluate_tail_perm (h : op ≠ .distinct) :
    (op.evaluate c build probe).tail.Perm (op.evaluate c' build probe).tail := by
  have hrows := buildRows_congr (pairs_joinConfig_eq hc hc' op)
  have htail := (evaluate_tail c build probe h).perm
  rw [hrows] at htail
  exact htail.trans (evaluate_tail c' build probe h).perm.symm

theorem evaluate_output_perm (h : op ≠ .distinct) :
    (op.evaluate c build probe).output.Perm (op.evaluate c' build probe).output := by
  rw [Evaluation.output, Evaluation.output, evaluate_head_eq hc hc' h]
  exact (evaluate_tail_perm hc hc' h).append_left _

end Choice

/-- On rows that bind all join variables of two configurations, these evaluate every
operator alike, and what they merge are the compatible rows. -/
theorem evaluate_choice (hc : ∀ s ∈ build ++ probe, c.Binds s)
    (hc' : ∀ s ∈ build ++ probe, c'.Binds s) (op : Operator) :
    op.SameOutput (op.evaluate c build probe) (op.evaluate c' build probe) ∧
      (inner.evaluate c build probe).output = plainJoin build probe ∧
      (optional.evaluate c build probe).head = plainJoin build probe := by
  have hmerged : ∀ op : Operator, op.emitsMerges = true → op ≠ .distinct →
      (op.evaluate c build probe).head = plainJoin build probe := by
    intro op he hne
    rw [evaluate_head c build probe hne]
    exact mergedRows_eq_plainJoin he fun s hs => op.binds_joinConfig (hc s hs)
  have hinner : ∀ c : Config, (inner.evaluate c build probe).output =
      (inner.evaluate c build probe).head := fun c => List.append_nil _
  refine ⟨?_, ?_, hmerged optional rfl (by decide)⟩
  · cases op with
    | inner =>
      show (inner.evaluate c build probe).output = (inner.evaluate c' build probe).output
      rw [hinner, hinner]
      exact evaluate_head_eq hc hc' (by decide)
    | distinct =>
      exact (evaluate_distinct c build probe).trans (evaluate_distinct c' build probe).symm
    | optional => exact ⟨evaluate_head_eq hc hc' (by decide), evaluate_tail_perm hc hc' (by decide)⟩
    | semi | anti | minus => exact evaluate_output_perm hc hc' (by decide)
  · rw [hinner]
    exact hmerged inner rfl (by decide)

/-- Two rows that bind the variables of a hash join on `x` and of a cross product. -/
theorem evaluate_choice_crossProduct :
    let row := Solution.ofBindings [(⟨"x"⟩, .integer 1)]
    let c : Config := ⟨⟨[⟨"x"⟩], by decide, by decide⟩, .reject⟩
    let c' : Config := ⟨.crossProduct, .index⟩
    (∀ s ∈ [row] ++ [row], c.Binds s) ∧ (∀ s ∈ [row] ++ [row], c'.Binds s) ∧
      optional.SameOutput (optional.evaluate c [row] [row]) (optional.evaluate c' [row] [row]) ∧
      (inner.evaluate c [row] [row]).output = plainJoin [row] [row] ∧
      (optional.evaluate c [row] [row]).head = plainJoin [row] [row] := by
  intro row c c'
  have hc : ∀ s ∈ [row] ++ [row], c.Binds s := by
    intro s hs v hv
    obtain rfl : s = row := by simpa using hs
    obtain rfl : v = ⟨"x"⟩ := List.mem_singleton.1 hv
    rfl
  have hc' : ∀ s ∈ [row] ++ [row], c'.Binds s := fun s _ v hv => nomatch hv
  exact ⟨hc, hc', evaluate_choice hc hc' optional⟩

end Operator

end HashJoin
