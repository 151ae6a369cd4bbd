import HashJoin.Proofs.ArrivalOrder
import HashJoin.Proofs.Reordering

/-! Sides that are read in parts. A build row pairs up with probe rows whatever other build
rows are stored beside it, so the two parts of a build side may as well be put into two
indices. The merges of an inner join follow the probe side. The rows that `anti` and `minus`
have left after the first part of the probe side go through the second part as if they had
just come in: that they went through a scan may have changed their order, and nothing else. -/

namespace HashJoin

variable {build build' probe probe' : List Solution}

namespace Config

variable (c : Config) (op : Operator)

theorem paired_append_build : c.paired op (build ++ build') probe =
    c.paired op build probe ++ c.paired op build' probe := List.filter_append build build'

theorem unpaired_append_build : c.unpaired op (build ++ build') probe =
    c.unpaired op build probe ++ c.unpaired op build' probe := List.filter_append build build'

/-- Each probe row meets the first part of the build side before the second one. -/
theorem merges_append_build : (c.merges op (build ++ build') probe).Perm
    (c.merges op build probe ++ c.merges op build' probe) := by
  simp only [merges, List.filter_append, List.filterMap_append]
  exact (List.flatMap_append_perm probe _ _).symm

/-- What is left after both parts of the probe side is what the second part leaves of the
rows that the first part has left. -/
theorem unpaired_append_probe : c.unpaired op build (probe ++ probe') =
    c.unpaired op (c.unpaired op build probe) probe' := by
  rw [unpaired, unpaired, unpaired, List.filter_filter]
  refine List.filter_congr fun b _ => ?_
  rw [List.any_append, Bool.not_or, Bool.and_comm]

end Config

namespace Operator

variable {op : Operator} (c : Config)

theorem mergedRows_append_build (op : Operator) : (op.mergedRows c (build ++ build') probe).Perm
    (op.mergedRows c build probe ++ op.mergedRows c build' probe) := by
  cases op with
  | inner | optional => exact c.merges_append_build _
  | semi | anti | minus | distinct => exact .refl []

theorem buildRows_append_build (op : Operator) : op.buildRows c (build ++ build') probe =
    op.buildRows c build probe ++ op.buildRows c build' probe := by
  cases op with
  | optional | anti | minus => exact c.unpaired_append_build _
  | semi => exact c.paired_append_build _
  | inner | distinct => rfl

theorem evaluate_append_build (h : op ≠ .distinct) :
    (op.evaluate c (build ++ build') probe).output.Perm
      ((op.evaluate c build probe).output ++ (op.evaluate c build' probe).output) := by
  have hparts := (output_perm_rows c build probe h).append (output_perm_rows c build' probe h)
  refine (output_perm_rows c (build ++ build') probe h).trans (.trans ?_ hparts.symm)
  rw [buildRows_append_build]
  refine ((mergedRows_append_build _ op).append_right _).trans ?_
  -- the merges of the second part and the build rows of the first change places
  rw [List.append_assoc, List.append_assoc]
  exact (List.perm_append_comm_assoc _ _ _).append_left _

theorem evaluate_inner_append_probe : (inner.evaluate c build (probe ++ probe')).output =
    (inner.evaluate c build probe).output ++ (inner.evaluate c build probe').output := by
  rw [evaluate_inner, evaluate_inner, evaluate_inner, List.flatMap_append]

theorem evaluate_cascade (h : op = .anti ∨ op = .minus) :
    (op.evaluate c build (probe ++ probe')).output.Perm
      (op.evaluate c (op.evaluate c build probe).output probe').output := by
  refine (output_perm_unpaired c build (probe ++ probe') h).trans ?_
  rw [Config.unpaired_append_probe]
  have hleft := (output_perm_unpaired c build probe h).symm
  refine (Config.unpaired_perm _ op hleft (.refl probe')).trans ?_
  exact (output_perm_unpaired c _ probe' h).symm

/-- A build side may be stored in two parts and each of them joined by itself. Of the probe
side, an inner join may take the parts one after the other, and `anti` and `minus` may put
what the first part leaves through the second. -/
theorem evaluate_split (build build' probe probe' : List Solution) (h : op ≠ .distinct) :
    (op.evaluate c (build ++ build') probe).output.Perm
        ((op.evaluate c build probe).output ++ (op.evaluate c build' probe).output) ∧
      (inner.evaluate c build (probe ++ probe')).output =
        (inner.evaluate c build probe).output ++ (inner.evaluate c build probe').output ∧
      (anti.evaluate c build (probe ++ probe')).output.Perm
        (anti.evaluate c (anti.evaluate c build probe).output probe').output ∧
      (minus.evaluate c build (probe ++ probe')).output.Perm
        (minus.evaluate c (minus.evaluate c build probe).output probe').output :=
  ⟨evaluate_append_build c h, evaluate_inner_append_probe c, evaluate_cascade c (.inl rfl),
    evaluate_cascade c (.inr rfl)⟩

/-- Equal rows stand in both parts of the build side, and one part of the probe side leaves
the join variable unbound. -/
theorem evaluate_split_unbound :
    let one := Solution.ofBindings [(⟨"x"⟩, .integer 1)]
    let other := Solution.ofBindings [(⟨"y"⟩, .integer 2)]
    let c : Config := ⟨⟨[⟨"x"⟩], by decide, by decide⟩, .reject⟩
    let build := [one, .empty]
    let build' := [other, one]
    optional ≠ distinct ∧
      (optional.evaluate c (build ++ build') [other]).output.Perm
        ((optional.evaluate c build [other]).output ++ (optional.evaluate c build' [other]).output) ∧
      (inner.evaluate c build ([other] ++ [one])).output =
        (inner.evaluate c build [other]).output ++ (inner.evaluate c build [one]).output ∧
      (anti.evaluate c build ([other] ++ [one])).output.Perm
        (anti.evaluate c (anti.evaluate c build [other]).output [one]).output ∧
      (minus.evaluate c build ([other] ++ [one])).output.Perm
        (minus.evaluate c (minus.evaluate c build [other]).output [one]).output := by
  intro one other c build build'
  have hne : optional ≠ distinct := by decide
  exact ⟨hne, evaluate_split c build build' [other] [one] hne⟩

end Operator

end HashJoin
