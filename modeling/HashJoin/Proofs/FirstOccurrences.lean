import HashJoin.Proofs.Evaluation
import Mathlib.Data.List.Induction

/-! Streams without their repetitions. Of equal members of a list the first one stays, at
its place. So it is with `distinct`, although that compares a row only with the rows of its
own key: equal rows have equal keys, and every row has one, for unbound variables are
indexed whatever the configuration says. -/

namespace HashJoin

namespace Listing

variable {α : Type} [DecidableEq α]

/-- The members of a list that equal none before them, in the order of the list. -/
def firsts (items : List α) : List α :=
  (items.zipIdx.filter fun p => p.1 ∉ items.take p.2).map Prod.fst

/-- A member that is put at the end counts unless it is there already. -/
theorem firsts_concat (items : List α) (x : α) :
    firsts (items ++ [x]) = firsts items ++ if x ∈ items then [] else [x] := by
  rw [firsts, List.zipIdx_append, List.filter_append, List.map_append]
  congr 1
  · -- what stands before a member of `items` is the same in both lists
    refine congrArg (List.map Prod.fst) (List.filter_congr fun p hp => ?_)
    obtain ⟨-, hlt, -⟩ := List.mem_zipIdx hp
    rw [List.take_append_of_le_length (by omega)]
  · by_cases hx : x ∈ items <;> simp [hx]

theorem mem_firsts {items : List α} {x : α} : x ∈ firsts items ↔ x ∈ items := by
  induction items using List.reverseRecOn with
  | nil => rfl
  | append_singleton items y ih =>
    rw [firsts_concat, List.mem_append, List.mem_append, ih]
    by_cases hy : y ∈ items
    · simp only [hy, if_true, List.not_mem_nil, or_false, List.mem_singleton]
      exact ⟨Or.inl, fun h => h.elim id fun e => e ▸ hy⟩
    · simp [hy]

theorem nodup_firsts (items : List α) : (firsts items).Nodup := by
  induction items using List.reverseRecOn with
  | nil => exact List.nodup_nil
  | append_singleton items y ih =>
    rw [firsts_concat]
    by_cases hy : y ∈ items
    · simpa [hy] using ih
    · rw [if_neg hy]
      refine List.nodup_append'.2 ⟨ih, List.nodup_singleton y, ?_⟩
      rw [List.disjoint_singleton, mem_firsts]
      exact hy

/-- The order of the list decides on the order of what stays, and on nothing else. -/
theorem firsts_perm {items items' : List α} (h : items.Perm items') :
    (firsts items).Perm (firsts items') := by
  refine (List.perm_ext_iff_of_nodup (nodup_firsts _) (nodup_firsts _)).2 fun x => ?_
  rw [mem_firsts, mem_firsts, h.mem_iff]

theorem firsts_eq_eraseDups (items : List α) : firsts items = items.eraseDups := by
  induction items using List.reverseRecOn with
  | nil => rfl
  | append_singleton items x ih =>
    rw [firsts_concat, ih, List.eraseDups_append]
    congr 1
    by_cases hx : x ∈ items <;> simp [hx, List.removeAll, List.eraseDups_cons]

end Listing

namespace Operator

/-- `distinct` keeps of both sides, read as one stream, the rows that equal no earlier one,
and no configuration makes a difference to that. -/
theorem evaluate_distinct_firsts (c : Config) (build probe : List Solution) :
    (distinct.evaluate c build probe).output = Listing.firsts (build ++ probe) ∧
      ∀ c' : Config,
        (distinct.evaluate c' build probe).output = (distinct.evaluate c build probe).output := by
  refine ⟨?_, fun c' => ?_⟩
  · rw [evaluate_distinct, Listing.firsts_eq_eraseDups]
  · rw [evaluate_distinct, evaluate_distinct]

end Operator

end HashJoin
