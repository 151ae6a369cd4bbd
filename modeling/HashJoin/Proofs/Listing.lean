import Mathlib.Data.List.Perm.Basic

/-! Lists put together group by group. A list that is split by keys and read again key
by key has the same members in another order, and those of one key stay in the order
that they had. Two nested loops over the same two lists give the same results whichever
of them is the outer one, up to the order. -/

namespace HashJoin.Listing

variable {α β γ κ : Type}

section Groups

variable {p : κ → α → Bool} {keys : List κ} {items : List α}

/-- Reading the groups of distinct keys one after the other loses nothing and repeats
nothing, when every item belongs to the group of exactly one key. -/
theorem flatMap_filter_perm (hp : ∀ k k' x, p k x = true → p k' x = true → k = k')
    (hk : keys.Nodup) (hc : ∀ x ∈ items, ∃ k ∈ keys, p k x = true) :
    (keys.flatMap fun k => items.filter (p k)).Perm items := by
  induction keys generalizing items with
  | nil =>
    have : items = [] := List.eq_nil_iff_forall_not_mem.2 fun x hx => by simpa using hc x hx
    simp [this]
  | cons k keys ih =>
    obtain ⟨hn, hk⟩ := List.nodup_cons.1 hk
    -- the groups of the other keys have all their items outside the group of `k`
    have hrest : keys.flatMap (fun k' => items.filter (p k')) =
        keys.flatMap fun k' => (items.filter fun x => !p k x).filter (p k') := by
      refine List.flatMap_congr fun k' hk' => ?_
      rw [List.filter_filter]
      refine List.filter_congr fun x _ => ?_
      have hne : k' ≠ k := fun e => hn (e ▸ hk')
      cases hx : p k' x with
      | false => simp
      | true =>
        have : p k x = false := by
          rw [Bool.eq_false_iff]
          exact fun h => hne (hp k' k x hx h)
        simp [this]
    rw [List.flatMap_cons, hrest]
    refine ((ih hk ?_).append_left _).trans (List.filter_append_perm (p k) items)
    intro x hx
    obtain ⟨hx, hpx⟩ := List.mem_filter.1 hx
    obtain ⟨k', hk', hpk'⟩ := hc x hx
    rcases List.mem_cons.1 hk' with rfl | hk'
    · simp [hpk'] at hpx
    · exact ⟨k', hk', hpk'⟩

/-- The items of one group stay in their order. -/
theorem filter_flatMap_filter (hp : ∀ k k' x, p k x = true → p k' x = true → k = k')
    (hk : keys.Nodup) (hc : ∀ x ∈ items, ∃ k ∈ keys, p k x = true) (k₀ : κ) :
    (keys.flatMap fun k => items.filter (p k)).filter (p k₀) = items.filter (p k₀) := by
  have hother : ∀ k, k ≠ k₀ → (items.filter (p k)).filter (p k₀) = [] := by
    intro k hne
    rw [List.filter_filter, List.filter_eq_nil_iff]
    intro x _ hx
    rw [Bool.and_eq_true] at hx
    exact hne (hp k k₀ x hx.2 hx.1)
  have hown : (items.filter (p k₀)).filter (p k₀) = items.filter (p k₀) := by
    rw [List.filter_filter]
    exact List.filter_congr fun x _ => by simp
  have hnone : ∀ ks : List κ, k₀ ∉ ks →
      (ks.flatMap fun k => (items.filter (p k)).filter (p k₀)) = [] := by
    intro ks hn
    rw [List.flatMap_eq_nil_iff]
    exact fun k hk => hother k fun e => hn (e ▸ hk)
  rw [List.filter_flatMap]
  by_cases hm : k₀ ∈ keys
  · obtain ⟨before, after, rfl⟩ := List.append_of_mem hm
    obtain ⟨-, ha, hd⟩ := List.nodup_append.1 hk
    have hb : k₀ ∉ before := fun h => hd k₀ h k₀ List.mem_cons_self rfl
    rw [List.flatMap_append, List.flatMap_cons, hnone before hb,
      hnone after (List.nodup_cons.1 ha).1, hown, List.nil_append, List.append_nil]
  · rw [hnone keys hm, eq_comm, List.filter_eq_nil_iff]
    intro x hx hx₀
    obtain ⟨k, hk, hpk⟩ := hc x hx
    exact hm (hp k k₀ x hpk hx₀ ▸ hk)

end Groups

/-- Nested loops may be exchanged. -/
theorem flatMap_filterMap_swap (f : α → β → Option γ) (as : List α) (bs : List β) :
    (bs.flatMap fun b => as.filterMap fun a => f a b).Perm
      (as.flatMap fun a => bs.filterMap fun b => f a b) := by
  induction bs with
  | nil => simp
  | cons b bs ih =>
    have hrow : ∀ a, (b :: bs).filterMap (f a) = (f a b).toList ++ bs.filterMap (f a) := by
      intro a
      rw [List.filterMap_cons]
      cases f a b <;> rfl
    rw [List.flatMap_cons, List.filterMap_eq_flatMap_toList (fun a => f a b)]
    refine (ih.append_left _).trans ?_
    simp only [hrow]
    exact List.flatMap_append_perm as (fun a => (f a b).toList) fun a => bs.filterMap (f a)

end HashJoin.Listing
