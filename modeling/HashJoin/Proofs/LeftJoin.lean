import HashJoin.Proofs.NestedLoop

/-! What `optional` is made of. It gives out what `inner` gives out where unbound variables
are indexed, and after that what `anti` gives out: the one never counts a match, the other
never merges, and still all three agree on which rows pair up. Seen from the build side,
every row is extended by each probe row that it pairs up with, or it goes out as it is. -/

namespace HashJoin

namespace Config

variable (c : Config) (op : Operator) (build probe : List Solution) (b : Solution)

/-- The merges of a build row with the probe rows that it pairs up with. -/
def extensions : List Solution := (probe.filter (c.pairs op b)).filterMap (b.merge? ·)

/-- What a build row contributes to a left join: its extensions, or itself when it pairs up
with no probe row. -/
def leftRows : List Solution :=
  if probe.any (c.pairs .optional b) then c.extensions .optional probe b else [b]

/-- There is one extension for each probe row that the row pairs up with. -/
theorem length_extensions :
    (c.extensions op probe b).length = probe.countP (c.pairs op b) := by
  rw [extensions, List.length_filterMap_eq_countP, List.countP_filter]
  refine List.countP_congr fun p _ => ?_
  rw [Bool.and_eq_true, and_iff_right_iff_imp]
  intro hp
  obtain ⟨m, hm⟩ := (pairs_iff.1 hp).2.1
  rw [hm, Option.isSome_some]

theorem length_leftRows :
    (c.leftRows probe b).length = max 1 (probe.countP (c.pairs .optional b)) := by
  rw [leftRows]
  split
  next h =>
    have hpos := List.countP_pos_iff.2 (List.any_eq_true.1 h)
    rw [length_extensions]
    omega
  next h =>
    have hzero : probe.countP (c.pairs .optional b) = 0 := by
      rw [List.countP_eq_zero]
      exact fun p hp hpair => h (List.any_eq_true.2 ⟨p, hp, hpair⟩)
    rw [hzero]
    rfl

/-- The merges may as well be listed build row by build row. -/
theorem merges_perm_extensions :
    (c.merges op build probe).Perm (build.flatMap (c.extensions op probe)) := by
  let merge (b p : Solution) := if c.pairs op b p then b.merge? p else none
  have hmerges : c.merges op build probe = probe.flatMap fun p => build.filterMap (merge · p) :=
    List.flatMap_congr fun p _ => List.filterMap_filter
  have hrows : c.extensions op probe = fun b => probe.filterMap (merge b) :=
    funext fun b => List.filterMap_filter
  rw [hmerges, hrows]
  exact Listing.flatMap_filterMap_swap merge build probe

theorem leftRows_eq : c.leftRows probe b =
    c.extensions .optional probe b ++ if probe.any (c.pairs .optional b) then [] else [b] := by
  rw [leftRows]
  split
  next => rw [List.append_nil]
  next h =>
    have hnone : probe.filter (c.pairs .optional b) = [] := by
      rw [List.filter_eq_nil_iff]
      exact fun p hp hpair => h (List.any_eq_true.2 ⟨p, hp, hpair⟩)
    rw [extensions, hnone]
    rfl

theorem unpaired_eq_flatMap : c.unpaired op build probe =
    build.flatMap fun b => if probe.any (c.pairs op b) then [] else [b] := by
  rw [unpaired]
  induction build with
  | nil => rfl
  | cons b build ih =>
    rw [List.filter_cons, List.flatMap_cons, ih]
    cases probe.any (c.pairs op b) <;> rfl

/-- A left join goes through the build side once. -/
theorem leftRows_perm : (c.merges .optional build probe ++ c.unpaired .optional build probe).Perm
    (build.flatMap (c.leftRows probe)) := by
  rw [unpaired_eq_flatMap, funext (c.leftRows_eq probe)]
  exact ((c.merges_perm_extensions .optional build probe).append_right _).trans
    (List.flatMap_append_perm build _ _)

end Config

namespace Operator

variable (vars : JoinVariables) (policy : KeyPolicy) (build probe : List Solution)

theorem optional_head : (optional.evaluate ⟨vars, policy⟩ build probe).head =
    (inner.evaluate ⟨vars, .index⟩ build probe).output := by
  have htail : (inner.evaluate ⟨vars, .index⟩ build probe).tail = [] := rfl
  rw [evaluate_head _ _ _ (by decide), Evaluation.output, htail, List.append_nil,
    evaluate_head _ _ _ (by decide)]
  rfl

theorem optional_tail_perm : (optional.evaluate ⟨vars, policy⟩ build probe).tail.Perm
    (anti.evaluate ⟨vars, policy⟩ build probe).output := by
  have hoptional : optional ≠ distinct := by decide
  have hanti : anti ≠ distinct := by decide
  have htail := (evaluate_tail ⟨vars, policy⟩ build probe hoptional).perm
  exact htail.trans (output_perm_rows ⟨vars, policy⟩ build probe hanti).symm

/-- `optional` gives out the inner join and then the rows of `anti`. Put together that is
one extension of a build row for each probe row that it pairs up with, and the row itself
once if there is none. -/
theorem evaluate_optional_split :
    (∃ rest : List Solution,
      (optional.evaluate ⟨vars, policy⟩ build probe).output =
          (inner.evaluate ⟨vars, .index⟩ build probe).output ++ rest ∧
        rest.Perm (anti.evaluate ⟨vars, policy⟩ build probe).output) ∧
    (optional.evaluate ⟨vars, policy⟩ build probe).output.Perm
      (build.flatMap (Config.leftRows ⟨vars, .index⟩ probe)) ∧
    ∀ b, (Config.leftRows ⟨vars, .index⟩ probe b).length =
      max 1 (probe.countP (Config.pairs ⟨vars, .index⟩ .optional b)) := by
  refine ⟨⟨(optional.evaluate ⟨vars, policy⟩ build probe).tail, ?_, ?_⟩, ?_, ?_⟩
  · rw [Evaluation.output, optional_head]
  · exact optional_tail_perm vars policy build probe
  · have hoptional : optional ≠ distinct := by decide
    exact (output_perm_rows ⟨vars, policy⟩ build probe hoptional).trans
      (Config.leftRows_perm _ build probe)
  · exact Config.length_leftRows _ probe

end Operator

end HashJoin
