import HashJoin.Proofs.NestedLoop

/-! How `minus` differs from `anti`. Both keep the build rows without a match, but `minus`
has no match for rows that bind no variable in common, though rows of one key can be merged
then. So it keeps some rows that `anti` drops: those that meet probe rows and share no bound
variable with any that they meet. A bound slot of a key is a variable that all rows of that
key bind, hence only rows without any bound join variable are kept in this way. -/

namespace HashJoin

namespace Config

variable {c : Config} {build probe : List Solution} {b p : Solution}

/-- The probe rows of the key of a build row that it can be merged with. -/
def partners (c : Config) (probe : List Solution) (b : Solution) : List Solution :=
  probe.filter fun p => c.alike b p && b.compatible p

theorem mem_partners : p ∈ c.partners probe b ↔
    p ∈ probe ∧ (∃ k, c.keying b = .key k ∧ c.keying p = .key k) ∧ b.compatible p = true := by
  rw [partners, List.mem_filter, Bool.and_eq_true, alike_iff]

/-- The build rows that have partners, but no bound variable in common with any of them. -/
def strangers (c : Config) (build probe : List Solution) : List Solution :=
  build.filter fun b => !(c.partners probe b).isEmpty &&
    (c.partners probe b).all fun p => !b.sharesVariable p

theorem mem_strangers : b ∈ c.strangers build probe ↔ b ∈ build ∧
    c.partners probe b ≠ [] ∧ ∀ p ∈ c.partners probe b, b.sharesVariable p = false := by
  rw [strangers, List.mem_filter, Bool.and_eq_true, Bool.not_eq_true', List.isEmpty_eq_false_iff,
    List.all_eq_true]
  simp only [Bool.not_eq_true']

theorem any_pairs_anti (c : Config) (probe : List Solution) (b : Solution) :
    probe.any (c.pairs .anti b) = !(c.partners probe b).isEmpty := by
  have hpairs : c.pairs .anti b = fun p => c.alike b p && b.compatible p := by
    funext p
    rw [pairs, Solution.isSome_merge?, decide_eq_true (by decide), Bool.true_or, Bool.and_true]
  rw [hpairs, partners, Bool.eq_iff_iff, Bool.not_eq_true', List.isEmpty_eq_false_iff, ne_eq,
    List.filter_eq_nil_iff, List.any_eq_true]
  simp only [not_forall, not_not, exists_prop]

theorem any_pairs_minus (c : Config) (probe : List Solution) (b : Solution) :
    probe.any (c.pairs .minus b) = (c.partners probe b).any b.sharesVariable := by
  rw [partners, List.any_filter]
  congr 1
  funext p
  rw [pairs, Solution.isSome_merge?, decide_eq_false (by decide), Bool.false_or]

/-- What `minus` keeps is what `anti` keeps, and the strangers. -/
theorem unpaired_minus_perm (c : Config) (build probe : List Solution) :
    (c.unpaired .minus build probe).Perm
      (c.unpaired .anti build probe ++ c.strangers build probe) := by
  have hsplit := List.filter_append_perm (fun b => (c.partners probe b).isEmpty)
    (c.unpaired .minus build probe)
  rw [unpaired, List.filter_filter, List.filter_filter] at hsplit
  refine hsplit.symm.trans (.append (.of_eq ?_) (.of_eq ?_))
  · rw [unpaired]
    refine List.filter_congr fun b _ => ?_
    rw [any_pairs_anti, any_pairs_minus, Bool.not_not]
    cases hp : (c.partners probe b).isEmpty with
    | false => rfl
    | true => rw [List.isEmpty_iff.1 hp]; rfl
  · rw [strangers]
    refine List.filter_congr fun b _ => ?_
    rw [any_pairs_minus, List.not_any_eq_all_not]

/-- A stranger binds no join variable, for its partners would bind it too. -/
theorem isBound_of_mem_strangers (hb : b ∈ c.strangers build probe) :
    ∀ v ∈ c.joinVariables.vars, b.isBound v = false := by
  obtain ⟨-, hsome, hnone⟩ := mem_strangers.1 hb
  obtain ⟨p, hp⟩ := List.exists_mem_of_ne_nil _ hsome
  obtain ⟨-, ⟨k, hkb, hkp⟩, -⟩ := mem_partners.1 hp
  intro v hv
  rw [Bool.eq_false_iff]
  intro hbound
  have hshared : b.sharesVariable p = true := by
    refine Solution.sharesVariable_iff.2 ⟨v, hbound, ?_⟩
    rwa [Solution.isBound, ← get?_eq_of_keying hkb hkp v hv]
  rw [hnone p hp] at hshared
  contradiction

theorem strangers_eq_nil
    (h : ∀ b ∈ build, ∃ v ∈ c.joinVariables.vars, b.isBound v = true) :
    c.strangers build probe = [] := by
  rw [List.eq_nil_iff_forall_not_mem]
  intro b hb
  obtain ⟨v, hv, hbound⟩ := h b (mem_strangers.1 hb).1
  rw [isBound_of_mem_strangers hb v hv] at hbound
  contradiction

end Config

namespace Operator

variable (vars : JoinVariables) (policy : KeyPolicy) (build probe : List Solution)

theorem minus_output_perm : (minus.evaluate ⟨vars, policy⟩ build probe).output.Perm
    ((anti.evaluate ⟨vars, policy⟩ build probe).output ++
      Config.strangers ⟨vars, .index⟩ build probe) := by
  refine (output_perm_unpaired ⟨vars, policy⟩ build probe (.inr rfl)).trans ?_
  refine (Config.unpaired_minus_perm ⟨vars, .index⟩ build probe).trans ?_
  exact (output_perm_unpaired ⟨vars, policy⟩ build probe (.inl rfl)).symm.append_right _

/-- `minus` gives out what `anti` gives out and the strangers on top of it. These bind none of
the join variables, so the two give out the same when every build row binds one. -/
theorem minus_anti_differ :
    (anti.evaluate ⟨vars, policy⟩ build probe).output.Subperm
        (minus.evaluate ⟨vars, policy⟩ build probe).output ∧
      (minus.evaluate ⟨vars, policy⟩ build probe).output.Perm
        ((anti.evaluate ⟨vars, policy⟩ build probe).output ++
          Config.strangers ⟨vars, .index⟩ build probe) ∧
      (∀ b ∈ Config.strangers ⟨vars, .index⟩ build probe, ∀ v ∈ vars.vars, b.isBound v = false) ∧
      ((∀ b ∈ build, ∃ v ∈ vars.vars, b.isBound v = true) →
        (anti.evaluate ⟨vars, policy⟩ build probe).output.Perm
          (minus.evaluate ⟨vars, policy⟩ build probe).output) := by
  have hperm := minus_output_perm vars policy build probe
  refine ⟨?_, hperm, fun b hb => Config.isBound_of_mem_strangers hb, fun hbound => ?_⟩
  · exact (List.sublist_append_left _ _).subperm.trans hperm.symm.subperm
  · rw [Config.strangers_eq_nil hbound, List.append_nil] at hperm
    exact hperm.symm

/-- A build side of rows that bind the join variable, one of them twice; the probe side has a
row that leaves it unbound. -/
theorem minus_anti_differ_bound :
    let one := Solution.ofBindings [(⟨"x"⟩, .integer 1)]
    let two := Solution.ofBindings [(⟨"x"⟩, .integer 2), (⟨"y"⟩, .integer 2)]
    let other := Solution.ofBindings [(⟨"z"⟩, .integer 3)]
    let vars : JoinVariables := ⟨[⟨"x"⟩], by decide, by decide⟩
    (∀ b ∈ [one, two, one], ∃ v ∈ vars.vars, b.isBound v = true) ∧
      (anti.evaluate ⟨vars, .reject⟩ [one, two, one] [other, one]).output.Perm
        (minus.evaluate ⟨vars, .reject⟩ [one, two, one] [other, one]).output := by
  intro one two other vars
  have hbound : ∀ b ∈ [one, two, one], ∃ v ∈ vars.vars, b.isBound v = true := by decide +kernel
  exact ⟨hbound, (minus_anti_differ vars .reject [one, two, one] [other, one]).2.2.2 hbound⟩

/-- In a cross product rows without a common variable are strangers. -/
example :
    let a := Solution.ofBindings [(⟨"a"⟩, .integer 1)]
    let b := Solution.ofBindings [(⟨"b"⟩, .integer 2)]
    let c := Solution.ofBindings [(⟨"c"⟩, .integer 3)]
    Config.strangers ⟨.crossProduct, .index⟩ [a, b] [c, b] = [a] := by decide +kernel

end Operator

end HashJoin
