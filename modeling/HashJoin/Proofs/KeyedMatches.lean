import HashJoin.Proofs.Reordering
import HashJoin.Proofs.Search
import HashJoin.Proofs.VariableChoice

/-! A look-up by key misses no match. Rows that can be merged agree on the variables that both
bind, so that rows which bind all join variables stand under one key; and a merge of two rows of
one key stands under it too, with the same places unbound. Each slot is what a search for its
variable finds in the sorted bindings, in the order in which the join variables were declared. -/

namespace HashJoin

namespace Config

variable {c : Config} {s : Solution} {k : Key}

/-- The slots of a key are found by searches. -/
theorem slots_eq_find? (h : c.keying s = .key k) :
    k.slots = c.joinVariables.vars.map fun v => Binding.find? v s.bindings := by
  rw [(keying_eq_key_iff.1 h).1]
  exact List.map_congr_left fun v _ => (Binding.find?_eq_get? s.rising).symm

/-- Compatible rows that bind all join variables have a key, and it is the same for both. Rows of
one key that can be merged hand it on to their merge: whatever a slot holds or leaves unbound, a
search finds it in both rows and in the merge. -/
theorem keying_keeps_matches (vars : JoinVariables) (policy : KeyPolicy) (a b : Solution) :
    let keying := keying ⟨vars, policy⟩
    (a.compatible b = true → (∀ v ∈ vars.vars, a.isBound v = true ∧ b.isBound v = true) →
      ∃ k, keying a = .key k ∧ keying b = .key k) ∧
    ∀ k l m, keying a = .key k → keying b = .key l → (k == l) = true → a.merge? b = some m →
      keying m = .key k ∧
        ∀ s ∈ [a, b, m], k.slots = vars.vars.map fun v => Binding.find? v s.bindings := by
  intro keying
  constructor
  · intro hcompatible hbound
    have ha : Binds ⟨vars, policy⟩ a := fun v hv => (hbound v hv).1
    have hb : Binds ⟨vars, policy⟩ b := fun v hv => (hbound v hv).2
    exact alike_iff.1 (alike_of_compatible ha hb hcompatible)
  · intro k l m ha hb hkl hm
    obtain rfl : k = l := Key.beq_iff_eq.1 hkl
    have hmerge : keying m = .key k := (keying_merge (alike_iff.2 ⟨k, ha, hb⟩) hm).trans ha
    refine ⟨hmerge, fun s hs => ?_⟩
    rcases List.mem_cons.1 hs with rfl | hs
    · exact slots_eq_find? ha
    rcases List.mem_cons.1 hs with rfl | hs
    · exact slots_eq_find? hb
    · exact List.mem_singleton.1 hs ▸ slots_eq_find? hmerge

/-- Two rows that agree on `x` and differ elsewhere. Where unbound variables are indexed they leave
`y` unbound both, and so does their merge. -/
theorem keying_keeps_matches_unbound :
    let x : JoinVariables := ⟨[⟨"x"⟩], by decide, by decide⟩
    let yx : JoinVariables := ⟨[⟨"y"⟩, ⟨"x"⟩], by decide, by decide⟩
    let a := Solution.ofBindings [(⟨"x"⟩, .integer 1), (⟨"z"⟩, .integer 3)]
    let b := Solution.ofBindings [(⟨"w"⟩, .integer 4), (⟨"x"⟩, .integer 1)]
    let k := Key.ofSlots [none, some (.integer 1)]
    (∃ k, keying ⟨x, .reject⟩ a = .key k ∧ keying ⟨x, .reject⟩ b = .key k) ∧
      keying ⟨yx, .index⟩ a = .key k ∧ keying ⟨yx, .index⟩ b = .key k ∧
      keying ⟨yx, .index⟩ (a.union b) = .key k := by
  intro x yx a b k
  have ha : keying ⟨yx, .index⟩ a = .key k := keying_eq_key_iff.2 ⟨by decide +kernel, nofun⟩
  have hb : keying ⟨yx, .index⟩ b = .key k := keying_eq_key_iff.2 ⟨by decide +kernel, nofun⟩
  have hm : a.merge? b = some (a.union b) := by decide +kernel
  have hmerge := (keying_keeps_matches yx .index a b).2 k k _ ha hb (beq_self_eq_true k) hm
  refine ⟨(keying_keeps_matches x .reject a b).1 (by decide +kernel) (by decide +kernel), ha, hb, ?_⟩
  exact hmerge.1

end Config

end HashJoin
