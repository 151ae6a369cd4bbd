import HashJoin.Keying

/-! Which solutions have a key, and when two have the same one. A key lists what look-ups
of the join variables find, so two solutions have equal keys exactly when these look-ups
agree. A solution is without a key only where unbound variables are rejected and it leaves
some join variable unbound; the first one that it leaves unbound is then named. -/

namespace HashJoin

namespace Keying

theorem isMissing_eq_false_iff {keying : Keying} :
    keying.isMissing = false ↔ ∃ k, keying = .key k := by
  cases keying with
  | key k => exact ⟨fun _ => ⟨k, rfl⟩, fun _ => rfl⟩
  | missing v => simp [isMissing]

/-- One variable after the other: its slot, unless it has none and that is rejected. -/
theorem slots_cons (policy : KeyPolicy) (s : Solution) (v : Variable) (vs : List Variable) :
    slots policy s (v :: vs) = if policy = .reject ∧ s.isBound v = false then .error v
      else (slots policy s vs).map (s.get? v :: ·) := by
  rw [Solution.isBound]
  cases policy <;> cases h : s.get? v <;> simp [slots, h]

theorem map_cons_eq_ok_iff {ε α : Type} {x : α} {rest : Except ε (List α)} {found : List α} :
    rest.map (x :: ·) = .ok found ↔ ∃ xs, rest = .ok xs ∧ found = x :: xs := by
  cases rest with
  | error e => simp [Except.map]
  | ok xs => simp [Except.map, eq_comm]

theorem slots_eq_ok_iff {policy : KeyPolicy} {s : Solution} {vs : List Variable}
    {found : List Slot} : slots policy s vs = .ok found ↔
      found = vs.map s.get? ∧ (policy = .reject → ∀ v ∈ vs, s.isBound v = true) := by
  induction vs generalizing found with
  | nil =>
    rw [slots, Except.ok.injEq, List.map_nil]
    exact ⟨fun h => ⟨h.symm, fun _ _ hv => nomatch hv⟩, fun h => h.1.symm⟩
  | cons v vs ih =>
    rw [slots_cons, List.map_cons]
    split
    next h =>
      refine ⟨fun he => (nomatch he), fun he => ?_⟩
      have hb := he.2 h.1 v List.mem_cons_self
      rw [h.2] at hb
      contradiction
    next h =>
      rw [map_cons_eq_ok_iff]
      constructor
      · rintro ⟨rest, hr, rfl⟩
        obtain ⟨rfl, hb⟩ := ih.1 hr
        refine ⟨rfl, fun hp w hw => ?_⟩
        rcases List.mem_cons.1 hw with rfl | hw
        · exact Bool.not_eq_false _ ▸ fun hn => h ⟨hp, hn⟩
        · exact hb hp w hw
      · rintro ⟨rfl, hb⟩
        exact ⟨_, ih.2 ⟨rfl, fun hp w hw => hb hp w (List.mem_cons_of_mem v hw)⟩, rfl⟩

theorem map_cons_eq_error_iff {ε α : Type} {x : α} {rest : Except ε (List α)} {e : ε} :
    rest.map (x :: ·) = .error e ↔ rest = .error e := by
  cases rest <;> simp [Except.map]

/-- The variables are gone through from the left, up to the first that has no slot. -/
theorem slots_eq_error_iff {policy : KeyPolicy} {s : Solution} {vs : List Variable}
    {v : Variable} : slots policy s vs = .error v ↔
      policy = .reject ∧ vs.find? (fun w => !s.isBound w) = some v := by
  induction vs with
  | nil => simp [slots]
  | cons w vs ih =>
    rw [slots_cons, List.find?_cons]
    cases hw : s.isBound w with
    | true =>
      rw [if_neg fun h => (nomatch h.2), map_cons_eq_error_iff, ih]
      rfl
    | false =>
      cases policy with
      | reject => simp
      | index =>
        have hne : KeyPolicy.index ≠ .reject := by decide
        rw [if_neg fun h => hne h.1, map_cons_eq_error_iff, ih]
        exact ⟨fun h => absurd h.1 hne, fun h => absurd h.1 hne⟩

theorem slots_congr {policy : KeyPolicy} {s t : Solution} {vs : List Variable}
    (h : ∀ v ∈ vs, s.get? v = t.get? v) : slots policy s vs = slots policy t vs := by
  induction vs with
  | nil => rfl
  | cons v vs ih =>
    rw [slots_cons, slots_cons, Solution.isBound, Solution.isBound, h v List.mem_cons_self,
      ih fun w hw => h w (List.mem_cons_of_mem v hw)]

end Keying

namespace Config

variable {c : Config} {s t : Solution} {k : Key}

theorem keying_eq_key_iff : c.keying s = .key k ↔
    k.slots = c.joinVariables.vars.map s.get? ∧
      (c.policy = .reject → ∀ v ∈ c.joinVariables.vars, s.isBound v = true) := by
  have hok : c.keying s = .key k ↔
      Keying.slots c.policy s c.joinVariables.vars = .ok k.slots := by
    rw [keying]
    cases Keying.slots c.policy s c.joinVariables.vars with
    | error v => simp
    | ok found =>
      rw [Keying.key.injEq, Except.ok.injEq]
      exact ⟨fun h => h ▸ rfl, fun h => Key.ext h⟩
  rw [hok, Keying.slots_eq_ok_iff]

/-- A solution that has the slots that look-ups find has them as its key. -/
theorem keying_eq_ofSlots
    (h : c.policy = .reject → ∀ v ∈ c.joinVariables.vars, s.isBound v = true) :
    c.keying s = .key (.ofSlots (c.joinVariables.vars.map s.get?)) := keying_eq_key_iff.2 ⟨rfl, h⟩

/-- Whether a solution has some key, so that it can be stored. -/
def hasKey (c : Config) (s : Solution) : Bool := !(c.keying s).isMissing

theorem hasKey_iff : c.hasKey s = true ↔ ∃ k, c.keying s = .key k := by
  rw [hasKey, Bool.not_eq_true', Keying.isMissing_eq_false_iff]

/-- Where unbound variables are indexed, every solution can be stored. -/
theorem hasKey_of_index (h : c.policy = .index) (s : Solution) : c.hasKey s = true := by
  refine hasKey_iff.2 ⟨_, keying_eq_ofSlots fun hr => ?_⟩
  rw [h] at hr
  contradiction

/-- Solutions that agree on the join variables are keyed alike. -/
theorem keying_congr (h : ∀ v ∈ c.joinVariables.vars, s.get? v = t.get? v) :
    c.keying s = c.keying t := by
  rw [keying, keying, Keying.slots_congr h]

/-- Solutions of one key agree on the join variables. -/
theorem get?_eq_of_keying (hs : c.keying s = .key k) (ht : c.keying t = .key k) :
    ∀ v ∈ c.joinVariables.vars, s.get? v = t.get? v := by
  have h := (keying_eq_key_iff.1 hs).1.symm.trans (keying_eq_key_iff.1 ht).1
  exact List.map_inj_left.1 h

theorem keying_eq_missing_iff {v : Variable} : c.keying s = .missing v ↔
    c.policy = .reject ∧ c.joinVariables.vars.find? (fun w => !s.isBound w) = some v := by
  have herror : c.keying s = .missing v ↔
      Keying.slots c.policy s c.joinVariables.vars = .error v := by
    rw [keying]
    cases Keying.slots c.policy s c.joinVariables.vars <;> simp
  rw [herror, Keying.slots_eq_error_iff]

/-- A key has one slot for each join variable. -/
theorem size_eq_of_keying (h : c.keying s = .key k) : k.size = c.joinVariables.size := by
  rw [Key.size, (keying_eq_key_iff.1 h).1, List.length_map]
  rfl

/-- Whether two solutions have the same key. -/
def alike (c : Config) (s t : Solution) : Bool :=
  match c.keying s with
  | .key k => c.keying t = .key k
  | .missing _ => false

theorem alike_iff : c.alike s t = true ↔ ∃ k, c.keying s = .key k ∧ c.keying t = .key k := by
  rw [alike]
  cases c.keying s with
  | key k => simp
  | missing v => simp

theorem alike_comm (c : Config) (s t : Solution) : c.alike s t = c.alike t s := by
  rw [Bool.eq_iff_iff, alike_iff, alike_iff]
  exact exists_congr fun k => and_comm

theorem alike_eq_false (h : c.hasKey s = false) (t : Solution) : c.alike s t = false := by
  rw [Bool.eq_false_iff, ne_eq, alike_iff]
  rintro ⟨k, hk, -⟩
  rw [hasKey_iff.2 ⟨k, hk⟩] at h
  contradiction

/-- Solutions are alike that agree on the join variables, on unbound ones too where these
are indexed. -/
theorem alike_iff_agree : c.alike s t = true ↔
    (c.policy = .reject → ∀ v ∈ c.joinVariables.vars, s.isBound v = true) ∧
      ∀ v ∈ c.joinVariables.vars, s.get? v = t.get? v := by
  rw [alike_iff]
  constructor
  · rintro ⟨k, hs, ht⟩
    exact ⟨(keying_eq_key_iff.1 hs).2, get?_eq_of_keying hs ht⟩
  · rintro ⟨hb, hagree⟩
    exact ⟨_, keying_eq_ofSlots hb, keying_congr hagree ▸ keying_eq_ofSlots hb⟩

/-- Where every join variable is bound, solutions are alike that agree on these. -/
theorem alike_of_isBound (hs : ∀ v ∈ c.joinVariables.vars, s.isBound v = true)
    (h : ∀ v ∈ c.joinVariables.vars, s.get? v = t.get? v) : c.alike s t = true := by
  have hk := keying_eq_ofSlots fun _ => hs
  exact alike_iff.2 ⟨_, hk, keying_congr h ▸ hk⟩

/-! ### What keys tell apart -/

/-- A key made of look-ups has a term in every slot when every variable is bound. -/
theorem isFullyBound_of_isBound (hk : c.keying s = .key k)
    (hb : ∀ v ∈ c.joinVariables.vars, s.isBound v = true) : k.isFullyBound = true := by
  rw [Key.isFullyBound, (keying_eq_key_iff.1 hk).1, List.all_map, List.all_eq_true]
  exact hb

/-- Solutions agree on a variable when neither binds it or both bind it to one term. -/
theorem get?_eq_iff {v : Variable} : s.get? v = t.get? v ↔
    (s.isBound v = false ∧ t.isBound v = false) ∨
      ∃ x, s.get? v = some x ∧ t.get? v = some x := by
  rw [Solution.isBound, Solution.isBound]
  cases s.get? v <;> cases t.get? v <;> simp [eq_comm]

/-- Keys separate solutions by what they bind the join variables to, and by nothing else. Where
unbound variables are indexed, every solution has a key, with one slot for each join variable,
and two solutions have equal keys just when each of the variables is unbound in both or bound to
one term in both. Where unbound variables are rejected, a solution has a key just when it binds
them all; it is the key that it has in the other case too, and has no unbound slot. Otherwise the
first variable in declared order that is unbound is named. -/
theorem keying_separates (vars : JoinVariables) (a b : Solution) :
    let indexed := keying ⟨vars, .index⟩
    let strict := keying ⟨vars, .reject⟩
    (∃ k l, indexed a = .key k ∧ indexed b = .key l ∧ k.size = vars.size ∧
      ((k == l) = true ↔ ∀ v ∈ vars.vars, (a.isBound v = false ∧ b.isBound v = false) ∨
        ∃ t, a.get? v = some t ∧ b.get? v = some t)) ∧
    ((∃ k, strict a = .key k) ↔ ∀ v ∈ vars.vars, a.isBound v = true) ∧
    (∀ k, strict a = .key k → indexed a = .key k ∧ k.isFullyBound = true) ∧
    ∀ v, strict a = .missing v ↔ vars.vars.find? (fun w => !a.isBound w) = some v := by
  intro indexed strict
  have hindexed : ∀ s, indexed s = .key (.ofSlots (vars.vars.map s.get?)) := fun s =>
    keying_eq_ofSlots (c := ⟨vars, .index⟩) fun h => nomatch h
  refine ⟨⟨_, _, hindexed a, hindexed b, size_eq_of_keying (hindexed a), ?_⟩, ?_, ?_, ?_⟩
  · rw [Key.beq_iff_eq]
    constructor
    · intro heq v hv
      have hslots := congrArg Key.slots heq
      exact get?_eq_iff.1 (List.map_inj_left.1 hslots v hv)
    · intro hagree
      exact congrArg Key.ofSlots (List.map_congr_left fun v hv => get?_eq_iff.2 (hagree v hv))
  · constructor
    · rintro ⟨k, hk⟩
      exact (keying_eq_key_iff.1 hk).2 rfl
    · intro hb
      exact ⟨_, keying_eq_ofSlots fun _ => hb⟩
  · intro k hk
    obtain ⟨hslots, hb⟩ := keying_eq_key_iff.1 hk
    exact ⟨keying_eq_key_iff.2 ⟨hslots, fun h => nomatch h⟩, isFullyBound_of_isBound hk (hb rfl)⟩
  · intro v
    exact keying_eq_missing_iff.trans (and_iff_right rfl)

/-- Two solutions that agree on `x`, of which one leaves `y` unbound. -/
theorem keying_separates_unbound :
    let vars : JoinVariables := ⟨[⟨"x"⟩, ⟨"y"⟩], by decide, by decide⟩
    let half := Solution.ofBindings [(⟨"x"⟩, .integer 1)]
    let whole := Solution.ofBindings [(⟨"y"⟩, .integer 2), (⟨"x"⟩, .integer 1)]
    keying ⟨vars, .reject⟩ half = .missing ⟨"y"⟩ ∧
      (∃ k l, keying ⟨vars, .index⟩ half = .key k ∧ keying ⟨vars, .index⟩ whole = .key l ∧
        k.size = 2 ∧ (k == l) = false) ∧
      ∃ k, keying ⟨vars, .reject⟩ whole = .key k ∧ keying ⟨vars, .index⟩ whole = .key k ∧
        k.isFullyBound = true := by
  intro vars half whole
  obtain ⟨⟨k, l, hk, hl, hsize, heq⟩, -, -, hmissing⟩ := keying_separates vars half whole
  obtain ⟨-, hbound, hsame, -⟩ := keying_separates vars whole half
  obtain ⟨m, hm⟩ := hbound.2 (by decide +kernel)
  refine ⟨(hmissing ⟨"y"⟩).2 (by decide +kernel), ⟨k, l, hk, hl, hsize, ?_⟩, m, hm, hsame m hm⟩
  rw [Bool.eq_false_iff, ne_eq, heq]
  intro hagree
  obtain ⟨-, hy⟩ | ⟨t, hy, -⟩ := hagree ⟨"y"⟩ (by decide)
  · exact absurd hy (by decide +kernel)
  · have hnone : half.get? ⟨"y"⟩ = none := by decide +kernel
    rw [hnone] at hy
    contradiction

end Config

end HashJoin
