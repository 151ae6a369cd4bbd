import HashJoin.Proofs.NestedLoop

/-! Inner joins can be reordered. A merge has the key that its two sources have, bound or
not, so that it meets a third row exactly when they would. Merging under a configuration is
therefore as commutative and associative as merging is, and the nested loops inherit it. -/

namespace HashJoin

namespace Config

variable {c : Config} {a b m : Solution}

/-- The merge of two rows of the same key. -/
def merge? (c : Config) (a b : Solution) : Option Solution :=
  if c.alike a b then a.merge? b else none

theorem merge?_comm (c : Config) (a b : Solution) : c.merge? a b = c.merge? b a := by
  rw [merge?, merge?, alike_comm, Solution.merge?_comm]

/-- A merge is keyed as its sources are. -/
theorem keying_merge (ha : c.alike a b) (hm : a.merge? b = some m) : c.keying m = c.keying a := by
  obtain ⟨k, hka, hkb⟩ := alike_iff.1 ha
  apply keying_congr
  intro v hv
  rw [(Solution.merge?_eq_some_iff.1 hm).2, Solution.get?_union,
    get?_eq_of_keying hka hkb v hv, Option.or_self]

theorem alike_congr_left {s : Solution} (h : c.keying a = c.keying b) :
    c.alike a s = c.alike b s := by
  rw [alike, alike, h]

theorem alike_trans {s : Solution} (hab : c.alike a b) : c.alike a s = c.alike b s := by
  obtain ⟨k, hka, hkb⟩ := alike_iff.1 hab
  exact alike_congr_left (hka.trans hkb.symm)

/-- Merging in a third row asks for all three to be of one key. -/
theorem merge?_bind_merge? (c : Config) (x y z : Solution) :
    (c.merge? x y).bind (c.merge? · z) =
      if c.alike x y ∧ c.alike y z then (x.merge? y).bind (·.merge? z) else none := by
  by_cases hxy : c.alike x y
  · rw [merge?, if_pos hxy]
    cases hm : x.merge? y with
    | none => simp
    | some m =>
      have hkey : c.alike m z = c.alike y z :=
        (alike_congr_left (keying_merge hxy hm)).trans (alike_trans hxy)
      rw [Option.bind_some, Option.bind_some, merge?, hkey]
      simp only [hxy, true_and]
  · rw [merge?, if_neg hxy, if_neg fun h => hxy h.1]
    rfl

theorem merge?_assoc (c : Config) (x y z : Solution) :
    (c.merge? x y).bind (c.merge? · z) = (c.merge? y z).bind (c.merge? x ·) := by
  have hflip : (fun m => c.merge? x m) = fun m => c.merge? m x := by
    funext m
    exact c.merge?_comm x m
  have hplain : (x.merge? y).bind (·.merge? z) = (y.merge? z).bind (·.merge? x) := by
    rw [Solution.merge?_assoc]
    congr 1
    funext m
    exact Solution.merge?_comm x m
  have hkeys : c.alike x y ∧ c.alike y z ↔ c.alike y z ∧ c.alike z x := by
    refine ⟨fun ⟨hxy, hyz⟩ => ⟨hyz, ?_⟩, fun ⟨hyz, hzx⟩ => ⟨?_, hyz⟩⟩
    · rwa [alike_comm, alike_trans hxy]
    · rwa [alike_comm, alike_trans hyz]
  rw [hflip, merge?_bind_merge?, merge?_bind_merge?, hplain]
  exact if_congr hkeys rfl rfl

end Config

namespace Operator

variable (c : Config) (as bs cs : List Solution)

/-- An inner join merges the rows of one key, in the order of its probe side. -/
theorem evaluate_inner : (inner.evaluate c as bs).output =
    bs.flatMap fun b => as.filterMap fun a => c.merge? a b := by
  have hne : inner ≠ distinct := by decide
  have htail : (inner.evaluate c as bs).tail = [] := rfl
  rw [Evaluation.output, evaluate_head c as bs hne, htail, List.append_nil]
  refine (Config.merges_eq rfl as bs).trans (List.flatMap_congr fun b _ => ?_)
  exact List.filterMap_congr fun a _ => c.meet?_eq inner a b

theorem evaluate_inner_comm :
    (inner.evaluate c as bs).output.Perm (inner.evaluate c bs as).output := by
  rw [evaluate_inner, evaluate_inner]
  have hcomm : (fun a => bs.filterMap fun b => c.merge? b a) =
      fun a => bs.filterMap fun b => c.merge? a b := by
    funext a
    exact List.filterMap_congr fun b _ => c.merge?_comm b a
  rw [hcomm]
  exact Listing.flatMap_filterMap_swap c.merge? as bs

/-- Both nestings run through the triples of rows in the same order. -/
theorem evaluate_inner_assoc :
    (inner.evaluate c (inner.evaluate c as bs).output cs).output =
      (inner.evaluate c as (inner.evaluate c bs cs).output).output := by
  simp only [evaluate_inner]
  rw [List.flatMap_assoc]
  refine List.flatMap_congr fun z _ => ?_
  have hright : ∀ ms : List Solution, (ms.filterMap (c.merge? · z)).flatMap
      (fun m => as.filterMap fun x => c.merge? x m) =
        ms.flatMap fun y => as.filterMap fun x => (c.merge? y z).bind (c.merge? x ·) := by
    intro ms
    induction ms with
    | nil => rfl
    | cons y ms ih =>
      rw [List.filterMap_cons, List.flatMap_cons, ← ih]
      cases c.merge? y z with
      | none => simp
      | some m => rfl
  rw [hright, List.filterMap_flatMap]
  refine List.flatMap_congr fun y _ => ?_
  rw [List.filterMap_filterMap]
  exact List.filterMap_congr fun x _ => c.merge?_assoc x y z

/-- The sides of an inner join may be exchanged, and of two joins either may come first. -/
theorem evaluate_inner_reorder :
    (inner.evaluate c as bs).output.Perm (inner.evaluate c bs as).output ∧
      (inner.evaluate c (inner.evaluate c as bs).output cs).output =
        (inner.evaluate c as (inner.evaluate c bs cs).output).output :=
  ⟨evaluate_inner_comm c as bs, evaluate_inner_assoc c as bs cs⟩

end Operator

end HashJoin
