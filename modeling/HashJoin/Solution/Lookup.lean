import HashJoin.Solution.Merge

/-! What look-ups find in solutions. An insertion changes the look-up of one variable; a
union finds what either side finds, the left one first; and two solutions are compatible
exactly when their look-ups never differ where both find a term. -/

namespace HashJoin

namespace Binding

theorem get?_cons (v : Variable) (b : Binding) (bs : List Binding) :
    get? v (b :: bs) = if v = b.1 then some b.2 else get? v bs := by
  rw [get?, List.lookup_cons]
  by_cases h : v = b.1 <;> simp [h, get?, beq_eq_false_iff_ne.2]

theorem get?_insert (v w : Variable) (t : Term) (bs : List Binding) :
    get? w (insert v t bs) = if w = v then some t else get? w bs := by
  induction bs with
  | nil => exact get?_cons w (v, t) []
  | cons b bs ih =>
    unfold insert
    split
    next => exact get?_cons w (v, t) (b :: bs)
    next h =>
      have : v = b.1 := Std.LawfulEqOrd.eq_of_compare h
      rw [get?_cons, get?_cons, this]
      by_cases hw : w = b.1 <;> simp [hw]
    next h =>
      have hv : v ≠ b.1 := fun e => by simp [e] at h
      rw [get?_cons, ih, get?_cons]
      by_cases hw : w = b.1
      · simp [hw, Ne.symm hv]
      · simp [hw]

/-- A variable before all those of a list is not bound there. -/
theorem get?_eq_none {v : Variable} {bs : List Binding}
    (h : ∀ b ∈ bs, compare v b.1 = .lt) : get? v bs = none := by
  rw [get?, List.lookup_eq_none_iff]
  intro b hb
  rw [bne_iff_ne]
  intro e
  have := h b hb
  simp [e] at this

theorem get?_eq_none_of_lt {v : Variable} {b : Binding} {bs : List Binding}
    (h : compare v b.1 = .lt) (hb : Rising (b :: bs)) : get? v (b :: bs) = none :=
  get?_eq_none fun c hc => by
    rcases List.mem_cons.1 hc with rfl | hc
    · exact h
    · exact Std.TransCmp.lt_trans h ((List.pairwise_cons.1 hb).1 c hc)

theorem get?_union {as bs : List Binding} (ha : Rising as) (hb : Rising bs) (v : Variable) :
    get? v (union as bs) = (get? v as).or (get? v bs) := by
  fun_induction union as bs with
  | case1 => rfl
  | case2 => simp [get?]
  | case3 a as b bs hab ih =>
    rw [get?_cons, get?_cons, ih (List.pairwise_cons.1 ha).2 hb]
    by_cases hv : v = a.1 <;> simp [hv]
  | case4 a as b bs hab ih =>
    rw [get?_cons, get?_cons _ b, ih ha (List.pairwise_cons.1 hb).2]
    by_cases hv : v = b.1
    · have hn := get?_eq_none_of_lt (Std.OrientedCmp.lt_of_gt hab) ha
      simp [hv, hn]
    · simp [hv]
  | case5 a as b bs hab ih =>
    have : a.1 = b.1 := Std.LawfulEqOrd.eq_of_compare hab
    rw [get?_cons, get?_cons, get?_cons, ih (List.pairwise_cons.1 ha).2 (List.pairwise_cons.1 hb).2]
    by_cases hv : v = a.1
    · simp [hv]
    · simp [hv, this ▸ hv]

/-- The shared terms are those that look-ups of one variable find on both sides. -/
theorem mem_shared_iff {as bs : List Binding} (ha : Rising as) (hb : Rising bs) {s t : Term} :
    (s, t) ∈ shared as bs ↔ ∃ v, get? v as = some s ∧ get? v bs = some t := by
  fun_induction shared as bs with
  | case1 => simp [get?]
  | case2 => simp [get?]
  | case3 a as b bs hab ih =>
    have hn := get?_eq_none_of_lt hab hb
    rw [ih (List.pairwise_cons.1 ha).2 hb]
    refine exists_congr fun v => ?_
    rw [get?_cons v a]
    by_cases hv : v = a.1
    · subst hv
      simp [hn]
    · simp [hv]
  | case4 a as b bs hab ih =>
    have hn := get?_eq_none_of_lt (Std.OrientedCmp.lt_of_gt hab) ha
    rw [ih ha (List.pairwise_cons.1 hb).2]
    refine exists_congr fun v => ?_
    rw [get?_cons v b]
    by_cases hv : v = b.1
    · subst hv
      simp [hn]
    · simp [hv]
  | case5 a as b bs hab ih =>
    have e : a.1 = b.1 := Std.LawfulEqOrd.eq_of_compare hab
    have hna : get? a.1 as = none := get?_eq_none (List.pairwise_cons.1 ha).1
    have hnb : get? a.1 bs = none := get?_eq_none (e ▸ (List.pairwise_cons.1 hb).1)
    rw [List.mem_cons, ih (List.pairwise_cons.1 ha).2 (List.pairwise_cons.1 hb).2]
    constructor
    · rintro (h | ⟨v, hs, ht⟩)
      · exact ⟨a.1, by simp_all [get?_cons]⟩
      · have hv : v ≠ a.1 := fun hv => by simp [hv, hna] at hs
        exact ⟨v, by simp [get?_cons, hv, hs], by simp [get?_cons, hv, ← e, ht]⟩
    · rintro ⟨v, hs, ht⟩
      by_cases hv : v = a.1
      · left; simp_all [get?_cons]
      · exact .inr ⟨v, by simpa [get?_cons, hv] using hs, by simpa [get?_cons, hv, ← e] using ht⟩

end Binding

namespace Solution

theorem get?_insert (s : Solution) (v w : Variable) (t : Term) :
    (s.insert v t).get? w = if w = v then some t else s.get? w := Binding.get?_insert v w t s.bindings

theorem get?_union (a b : Solution) (v : Variable) :
    (a.union b).get? v = (a.get? v).or (b.get? v) := Binding.get?_union a.rising b.rising v

/-- Solutions are compatible when no variable is bound to two terms. -/
theorem compatible_iff {a b : Solution} :
    a.compatible b ↔ ∀ v s t, a.get? v = some s → b.get? v = some t → s = t := by
  simp only [compatible, List.all_eq_true, decide_eq_true_eq]
  constructor
  · intro h v s t hs ht
    exact h (s, t) ((Binding.mem_shared_iff a.rising b.rising).2 ⟨v, hs, ht⟩)
  · rintro h ⟨s, t⟩ hm
    obtain ⟨v, hs, ht⟩ := (Binding.mem_shared_iff a.rising b.rising).1 hm
    exact h v s t hs ht

/-- Solutions share a variable when some variable is bound in both. -/
theorem sharesVariable_iff {a b : Solution} :
    a.sharesVariable b ↔ ∃ v, a.isBound v ∧ b.isBound v := by
  simp only [sharesVariable, isBound, Option.isSome_iff_exists]
  constructor
  · intro h
    obtain ⟨⟨s, t⟩, hm⟩ := List.exists_mem_of_ne_nil _ (by simpa using h)
    obtain ⟨v, hs, ht⟩ := (Binding.mem_shared_iff a.rising b.rising).1 hm
    exact ⟨v, ⟨s, hs⟩, t, ht⟩
  · rintro ⟨v, ⟨s, hs⟩, t, ht⟩
    have := List.ne_nil_of_mem ((Binding.mem_shared_iff a.rising b.rising).2 ⟨v, hs, ht⟩)
    simpa using this

/-- The bound variables are those listed. -/
theorem isBound_iff_mem {s : Solution} {v : Variable} :
    s.isBound v ↔ v ∈ s.bindings.map Prod.fst := by
  have : s.get? v = none ↔ v ∉ s.bindings.map Prod.fst := by
    simp only [get?, Binding.get?, List.lookup_eq_none_iff, List.mem_map, bne_iff_ne]
    exact ⟨fun h ⟨b, hb, hv⟩ => h b hb hv.symm, fun h b hb hv => h ⟨b, hb, hv.symm⟩⟩
  rw [isBound, Option.isSome_iff_ne_none, ne_eq, this, Decidable.not_not]

theorem covers_iff {a b : Solution} : a.covers b ↔ ∀ v, b.isBound v → a.isBound v := by
  simp only [isBound_iff_mem (s := b), covers, List.all_eq_true, List.mem_map]
  exact ⟨fun h v ⟨x, hx, hv⟩ => hv ▸ h x hx, fun h x hx => h x.1 ⟨x, hx, rfl⟩⟩

end Solution

end HashJoin
