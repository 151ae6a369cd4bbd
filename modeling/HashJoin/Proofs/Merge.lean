import HashJoin.Solution.Lookup

/-! The algebra of merging. A solution is known by what its look-ups find, so laws about
merges are laws about look-ups. A merge is defined for compatible solutions and is then
their union, whichever of its two representations is chosen: the left solution as it is, or
a list that is built anew. Where both sides are defined it is commutative and associative;
and it is as much defined in one nesting as in the other, since both ask for all pairs to be
compatible. -/

namespace HashJoin

namespace Binding

theorem get?_head (b : Binding) (bs : List Binding) : get? b.1 (b :: bs) = some b.2 := by
  rw [get?_cons, if_pos rfl]

/-- No variable stands twice in a rising list. -/
theorem Rising.nodup {bs : List Binding} (h : Rising bs) : (bs.map Prod.fst).Nodup := by
  refine List.pairwise_map.2 (h.imp fun hab e => ?_)
  simp [e] at hab

/-- A rising list is known by its look-ups. -/
theorem Rising.ext {as bs : List Binding} (ha : Rising as) (hb : Rising bs)
    (h : ∀ v, get? v as = get? v bs) : as = bs := by
  induction as generalizing bs with
  | nil =>
    cases bs with
    | nil => rfl
    | cons b bs =>
      have := h b.1
      rw [get?_head] at this
      contradiction
  | cons a as ih =>
    cases bs with
    | nil =>
      have := h a.1
      rw [get?_head] at this
      contradiction
    | cons b bs =>
      have hvar : a.1 = b.1 := by
        cases hab : compare a.1 b.1 with
        | lt =>
          have hn := get?_eq_none_of_lt hab hb
          rw [← h, get?_head] at hn
          contradiction
        | eq => exact Std.LawfulEqOrd.eq_of_compare hab
        | gt =>
          have hn := get?_eq_none_of_lt (Std.OrientedCmp.lt_of_gt hab) ha
          rw [h, get?_head] at hn
          contradiction
      have hterm : a.2 = b.2 := by
        have := h a.1
        rw [get?_head, hvar, get?_head] at this
        exact Option.some.inj this
      obtain ⟨ha₁, ha⟩ := List.pairwise_cons.1 ha
      obtain ⟨hb₁, hb⟩ := List.pairwise_cons.1 hb
      have htail : as = bs := by
        refine ih ha hb fun v => ?_
        by_cases hv : v = a.1
        · rw [hv, get?_eq_none ha₁, hvar, get?_eq_none hb₁]
        · have := h v
          rwa [get?_cons, get?_cons, if_neg hv, if_neg (hvar ▸ hv)] at this
      rw [htail, Prod.ext hvar hterm]

end Binding

namespace Solution

variable {a b c m : Solution}

theorem ext (h : ∀ v, a.get? v = b.get? v) : a = b := by
  obtain ⟨as, ha⟩ := a
  obtain ⟨bs, hb⟩ := b
  congr
  exact ha.ext hb h

/-! ### Compatibility -/

theorem compatible_comm (a b : Solution) : a.compatible b = b.compatible a := by
  rw [Bool.eq_iff_iff, compatible_iff, compatible_iff]
  exact ⟨fun h v s t hs ht => (h v t s ht hs).symm, fun h v s t hs ht => (h v t s ht hs).symm⟩

/-- Solutions are compatible that give one term to every variable bound in both. -/
theorem compatible_iff_agree : a.compatible b = true ↔
    ∀ v, a.isBound v = true → b.isBound v = true → a.get? v = b.get? v := by
  simp only [compatible_iff, isBound, Option.isSome_iff_exists]
  constructor
  · rintro h v ⟨s, hs⟩ ⟨t, ht⟩
    rw [hs, ht, h v s t hs ht]
  · intro h v s t hs ht
    have hst := h v ⟨s, hs⟩ ⟨t, ht⟩
    rw [hs, ht] at hst
    exact Option.some.inj hst

theorem compatible_self (a : Solution) : a.compatible a = true :=
  compatible_iff_agree.2 fun _ _ _ => rfl

theorem compatible_empty (a : Solution) : a.compatible empty = true :=
  compatible_iff_agree.2 fun _ _ hb => nomatch hb

/-- A third solution is compatible with a union when it is so with both parts. -/
theorem compatible_union (h : a.compatible b) (c : Solution) :
    (a.union b).compatible c = (a.compatible c && b.compatible c) := by
  rw [Bool.eq_iff_iff, Bool.and_eq_true]
  simp only [compatible_iff, get?_union, Option.or_eq_some_iff] at h ⊢
  constructor
  · intro hu
    refine ⟨fun v s t hs ht => hu v s t (.inl hs) ht, fun v s t hs ht => ?_⟩
    cases ha : a.get? v with
    | none => exact hu v s t (.inr ⟨ha, hs⟩) ht
    | some s' =>
      have hst := h v s' s ha hs
      exact hst ▸ hu v s' t (.inl ha) ht
  · rintro ⟨hac, hbc⟩ v s t (hs | ⟨-, hs⟩) ht
    · exact hac v s t hs ht
    · exact hbc v s t hs ht

/-! ### Unions -/

theorem isBound_union (a b : Solution) (v : Variable) :
    (a.union b).isBound v = (a.isBound v || b.isBound v) := by
  rw [isBound, get?_union, Option.isSome_or]
  rfl

/-- Where both bind a variable, the left one has its way. -/
theorem get?_union_eq_ite (a b : Solution) (v : Variable) :
    (a.union b).get? v = if a.isBound v then a.get? v else b.get? v := by
  rw [get?_union, isBound]
  cases a.get? v <;> rfl

theorem union_comm (h : a.compatible b) : a.union b = b.union a := by
  refine ext fun v => ?_
  rw [get?_union, get?_union]
  cases ha : a.get? v with
  | none => rw [Option.none_or, Option.or_none]
  | some s =>
    cases hb : b.get? v with
    | none => rfl
    | some t =>
      have := compatible_iff.1 h v s t ha hb
      rw [this, Option.or_self]

theorem union_assoc (a b c : Solution) : (a.union b).union c = a.union (b.union c) := by
  refine ext fun v => ?_
  simp only [get?_union, Option.or_assoc]

theorem union_eq_left (h : a.covers b) : a.union b = a := by
  refine ext fun v => ?_
  rw [get?_union]
  cases ha : a.get? v with
  | some s => rfl
  | none =>
    rw [Option.none_or, ← Option.not_isSome_iff_eq_none]
    intro hb
    have := covers_iff.1 h v hb
    rw [isBound, ha] at this
    contradiction

/-! ### Merges -/

theorem merge?_eq (a b : Solution) :
    a.merge? b = if a.compatible b then some (a.union b) else none := by
  rw [merge?]
  split
  · split
    next hc => rw [union_eq_left hc]
    next => rfl
  · rfl

theorem merge?_eq_some_iff : a.merge? b = some m ↔ a.compatible b ∧ m = a.union b := by
  rw [merge?_eq]
  split
  next h => rw [Option.some.injEq, eq_comm, eq_true h, true_and]
  next h => simp [h]

theorem isSome_merge? (a b : Solution) : (a.merge? b).isSome = a.compatible b := by
  rw [merge?_eq]
  cases a.compatible b <;> rfl

theorem merge?_comm (a b : Solution) : a.merge? b = b.merge? a := by
  rw [merge?_eq, merge?_eq, compatible_comm b a]
  split
  next h => rw [union_comm h]
  next => rfl

theorem merge?_self (a : Solution) : a.merge? a = some a := by
  have hcovers : a.covers a = true := covers_iff.2 fun _ => id
  rw [merge?_eq, if_pos a.compatible_self, union_eq_left hcovers]

theorem merge?_empty (a : Solution) : a.merge? empty = some a := by
  have hcovers : a.covers empty = true := covers_iff.2 fun _ hb => nomatch hb
  rw [merge?_eq, if_pos a.compatible_empty, union_eq_left hcovers]

/-- Merging in a third solution asks for all three pairs to be compatible. -/
theorem merge?_bind_merge? (a b c : Solution) : (a.merge? b).bind (·.merge? c) =
    if a.compatible b ∧ a.compatible c ∧ b.compatible c then some ((a.union b).union c)
    else none := by
  rw [merge?_eq]
  by_cases hab : a.compatible b
  · have hc := compatible_union hab c
    rw [if_pos hab, Option.bind_some, merge?_eq, hc]
    simp only [hab, true_and, Bool.and_eq_true]
  · rw [if_neg hab, if_neg fun h => hab h.1]
    rfl

/-- The order of merging makes no difference. -/
theorem merge?_assoc (a b c : Solution) :
    (a.merge? b).bind (·.merge? c) = (b.merge? c).bind (a.merge? ·) := by
  have hflip : (fun m => a.merge? m) = fun m => m.merge? a := funext fun m => merge?_comm a m
  have hpairs : (a.compatible b ∧ a.compatible c ∧ b.compatible c) ↔
      b.compatible c ∧ b.compatible a ∧ c.compatible a := by
    rw [compatible_comm b a, compatible_comm c a]
    exact ⟨fun ⟨hab, hac, hbc⟩ => ⟨hbc, hab, hac⟩, fun ⟨hbc, hab, hac⟩ => ⟨hab, hac, hbc⟩⟩
  rw [hflip, merge?_bind_merge?, merge?_bind_merge?]
  refine ite_congr (propext hpairs) (fun h => ?_) fun _ => rfl
  have hcomp : (b.union c).compatible a := by
    rw [compatible_union h.1 a, h.2.1, h.2.2]
    rfl
  rw [union_comm hcomp, union_assoc]

/-! ### What a merge is, and its laws -/

theorem absorbs_iff : a.absorbs b = true ↔
    a.compatible b = true ∧ ∀ v, b.isBound v = true → a.isBound v = true := by
  rw [absorbs, Bool.and_eq_true, covers_iff]

/-- A merge is the union of two compatible solutions. There is one just when they give one term
to every variable bound in both. It binds what either of them binds, in the order of the
variables and each of them once. The left solution is taken as it is just when it binds all that
the right one binds, and it is then what the union would be. -/
theorem merge?_unites (a b : Solution) :
    ((a.merge? b).isSome = true ↔
      ∀ v, a.isBound v = true → b.isBound v = true → a.get? v = b.get? v) ∧
    (a.merge? b).isSome = a.compatible b ∧
    (∀ m, a.merge? b = some m →
      (∀ v, m.isBound v = (a.isBound v || b.isBound v)) ∧
      (∀ v, m.get? v = if a.isBound v then a.get? v else b.get? v) ∧
      m.bindings = Binding.union a.bindings b.bindings ∧
      Binding.Rising (Binding.union a.bindings b.bindings) ∧ (m.bindings.map Prod.fst).Nodup) ∧
    (a.absorbs b = true ↔
      a.compatible b = true ∧ ∀ v, b.isBound v = true → a.isBound v = true) ∧
    a.merge? b = (if a.absorbs b then some a else if a.compatible b then some (a.union b) else none)
    ∧ (a.absorbs b = true → a.bindings = Binding.union a.bindings b.bindings) ∧
    (a.sharesVariable b = true ↔ ∃ v, a.isBound v = true ∧ b.isBound v = true) := by
  refine ⟨?_, isSome_merge? a b, fun m hm => ?_, absorbs_iff, ?_, fun h => ?_, sharesVariable_iff⟩
  · rw [isSome_merge?, compatible_iff_agree]
  · obtain ⟨-, rfl⟩ := merge?_eq_some_iff.1 hm
    have hrising := a.rising.union b.rising
    exact ⟨isBound_union a b, get?_union_eq_ite a b, rfl, hrising, hrising.nodup⟩
  · rw [merge?, absorbs]
    cases a.compatible b <;> cases a.covers b <;> rfl
  · rw [absorbs, Bool.and_eq_true] at h
    exact congrArg bindings (union_eq_left h.2).symm

/-- Two solutions that overlap in `y` have a merge, which neither of them is. -/
theorem merge?_unites_overlap :
    let one := ofBindings [(⟨"x"⟩, .integer 1), (⟨"y"⟩, .integer 2)]
    let other := ofBindings [(⟨"y"⟩, .integer 2), (⟨"z"⟩, .integer 3)]
    let both := ofBindings [(⟨"x"⟩, .integer 1), (⟨"y"⟩, .integer 2), (⟨"z"⟩, .integer 3)]
    one.merge? other = some both ∧ (∀ v, both.isBound v = (one.isBound v || other.isBound v)) ∧
      one.absorbs other = false ∧
      both.absorbs one = true ∧ both.bindings = Binding.union both.bindings one.bindings := by
  intro one other both
  have hmerge : one.merge? other = some both := by decide +kernel
  have habsorbs : both.absorbs one = true := by decide +kernel
  obtain ⟨-, -, hunion, -⟩ := merge?_unites one other
  obtain ⟨-, -, -, -, -, hsame, -⟩ := merge?_unites both one
  exact ⟨hmerge, (hunion both hmerge).1, by decide +kernel, habsorbs, hsame habsorbs⟩

/-- Merging is an operation that is not always defined, but commutative and associative where
it is, and defined in both nestings alike: when each two of the three solutions are compatible.
A solution merged with itself or with the empty one stays what it is. -/
theorem merge?_laws (a b c : Solution) :
    a.merge? b = b.merge? a ∧
    (a.merge? b).bind (·.merge? c) = (b.merge? c).bind (a.merge? ·) ∧
    (((a.merge? b).bind (·.merge? c)).isSome = true ↔
      a.compatible b = true ∧ a.compatible c = true ∧ b.compatible c = true) ∧
    a.merge? a = some a ∧ a.merge? empty = some a ∧ empty.merge? a = some a := by
  refine ⟨merge?_comm a b, merge?_assoc a b c, ?_, merge?_self a, merge?_empty a,
    merge?_comm a empty ▸ merge?_empty a⟩
  rw [merge?_bind_merge?, Option.isSome_ite]

end Solution

end HashJoin
