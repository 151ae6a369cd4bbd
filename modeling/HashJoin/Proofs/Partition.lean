import HashJoin.Proofs.NestedLoop

/-! How `semi` and `anti` share the build side, each under the configuration that it needs.
What the one asks for the other denies, but they do not treat unbound variables alike:
`anti` must store every row and so lets rows meet on variables that both leave unbound,
while `semi` turns such rows away. A build row that meets a probe row on an unbound
variable is therefore given out by neither of them. All others are given out by exactly
one, so that these rows are all that keeps the two from splitting the build side. -/

namespace HashJoin

namespace JoinVariables

/-- Whether a row binds all the variables. -/
def boundIn (vars : JoinVariables) (s : Solution) : Bool := vars.vars.all (s.isBound ·)

/-- Whether look-ups of the variables find the same in both rows, be it nothing. -/
def agree (vars : JoinVariables) (s t : Solution) : Bool :=
  vars.vars.all fun v => s.get? v = t.get? v

theorem boundIn_congr {vars : JoinVariables} {s t : Solution} (h : vars.agree s t = true) :
    vars.boundIn s = vars.boundIn t := by
  rw [agree, List.all_eq_true] at h
  rw [Bool.eq_iff_iff, boundIn, boundIn, List.all_eq_true, List.all_eq_true]
  refine forall₂_congr fun v hv => ?_
  rw [Solution.isBound, Solution.isBound, of_decide_eq_true (h v hv)]

end JoinVariables

namespace Config

variable {c : Config} {op : Operator}

theorem pairs_eq_agree (h : op ≠ .minus) (b p : Solution) : c.pairs op b p =
    ((c.policy.indexesUnbound || c.joinVariables.boundIn b) &&
      (c.joinVariables.agree b p && (b.merge? p).isSome)) := by
  rw [pairs, decide_eq_true h, Bool.true_or, Bool.and_true, ← Bool.and_assoc]
  congr 1
  rw [Bool.eq_iff_iff, alike_iff_agree, Bool.and_eq_true, JoinVariables.agree,
    JoinVariables.boundIn, List.all_eq_true]
  cases c.policy <;> simp [KeyPolicy.indexesUnbound]

end Config

namespace Operator

/-- Whether a build row agrees with some probe row that it can be merged with. -/
def meetsSome (vars : JoinVariables) (probe : List Solution) (b : Solution) : Bool :=
  probe.any fun p => vars.agree b p && (b.merge? p).isSome

/-- The build rows that leave a join variable unbound and meet a probe row all the same. -/
def lost (vars : JoinVariables) (build probe : List Solution) : List Solution :=
  build.filter fun b => !vars.boundIn b && meetsSome vars probe b

variable (vars : JoinVariables) (build probe : List Solution)

theorem semi_output_perm :
    (semi.evaluate (.forOperator semi vars) build probe).output.Perm
      (build.filter fun b => vars.boundIn b && meetsSome vars probe b) := by
  have hne : semi ≠ distinct := by decide
  refine (output_perm_rows _ build probe hne).trans (.of_eq (List.filter_congr fun b _ => ?_))
  rw [funext (Config.pairs_eq_agree (by decide) b)]
  change (probe.any fun p => vars.boundIn b && _) = _
  cases vars.boundIn b with
  | false => exact List.any_eq_false.2 fun _ _ => Bool.false_ne_true
  | true => rfl

theorem anti_output_perm :
    (anti.evaluate (.forOperator anti vars) build probe).output.Perm
      (build.filter fun b => !meetsSome vars probe b) := by
  have hne : anti ≠ distinct := by decide
  refine (output_perm_rows _ build probe hne).trans (.of_eq (List.filter_congr fun b _ => ?_))
  rw [funext (Config.pairs_eq_agree (by decide) b)]
  rfl

/-- With the lost rows the two outputs are the build side. -/
theorem semi_anti_lost_perm :
    ((semi.evaluate (.forOperator semi vars) build probe).output ++
      (anti.evaluate (.forOperator anti vars) build probe).output ++
        lost vars build probe).Perm build := by
  have hmet : ((build.filter fun b => vars.boundIn b && meetsSome vars probe b) ++
      lost vars build probe).Perm (build.filter (meetsSome vars probe)) := by
    have hsplit := List.filter_append_perm vars.boundIn (build.filter (meetsSome vars probe))
    rwa [List.filter_filter, List.filter_filter] at hsplit
  refine (((semi_output_perm vars build probe).append
    (anti_output_perm vars build probe)).append_right _).trans ?_
  rw [List.append_assoc]
  refine (List.perm_append_comm.append_left _).trans ?_
  rw [← List.append_assoc]
  exact (hmet.append_right _).trans (List.filter_append_perm _ build)

/-- The two outputs alone are the build side exactly when no row is lost. -/
theorem semi_anti_perm_iff :
    ((semi.evaluate (.forOperator semi vars) build probe).output ++
      (anti.evaluate (.forOperator anti vars) build probe).output).Perm build ↔
        lost vars build probe = [] := by
  have hall := semi_anti_lost_perm vars build probe
  constructor
  · intro h
    have hlen := hall.length_eq
    rw [List.length_append, h.length_eq] at hlen
    exact List.length_eq_zero_iff.1 (by omega)
  · intro h
    rwa [h, List.append_nil] at hall

/-- Rows that bind all join variables are not lost. -/
theorem lost_eq_nil {build probe : List Solution}
    (h : (∀ b ∈ build, vars.boundIn b = true) ∨ (∀ p ∈ probe, vars.boundIn p = true)) :
    lost vars build probe = [] := by
  rw [lost, List.filter_eq_nil_iff]
  intro b hb hlost
  rw [Bool.and_eq_true, Bool.not_eq_true', meetsSome, List.any_eq_true] at hlost
  obtain ⟨hunbound, p, hp, hmeets⟩ := hlost
  have hbound : vars.boundIn b = true := by
    rcases h with h | h
    · exact h b hb
    · rw [JoinVariables.boundIn_congr (Bool.and_eq_true _ _ ▸ hmeets).1]
      exact h p hp
  rw [hbound] at hunbound
  contradiction

/-- No build row is given out by both operators, and the rows that are given out by neither
are those that meet a probe row on an unbound variable. So the two split the build side
exactly when there are no such rows, as when every build row or every probe row binds all
join variables. -/
theorem semi_anti_share :
    (∀ b ∈ (semi.evaluate (.forOperator semi vars) build probe).output,
      b ∉ (anti.evaluate (.forOperator anti vars) build probe).output) ∧
    ((semi.evaluate (.forOperator semi vars) build probe).output ++
      (anti.evaluate (.forOperator anti vars) build probe).output ++
        lost vars build probe).Perm build ∧
    (((semi.evaluate (.forOperator semi vars) build probe).output ++
      (anti.evaluate (.forOperator anti vars) build probe).output).Perm build ↔
        lost vars build probe = []) ∧
    ((∀ b ∈ build, vars.boundIn b = true) ∨ (∀ p ∈ probe, vars.boundIn p = true) →
      ((semi.evaluate (.forOperator semi vars) build probe).output ++
        (anti.evaluate (.forOperator anti vars) build probe).output).Perm build) := by
  refine ⟨fun b hsemi hanti => ?_, semi_anti_lost_perm vars build probe,
    semi_anti_perm_iff vars build probe, fun hbound => ?_⟩
  · have hs := (List.mem_filter.1 ((semi_output_perm vars build probe).mem_iff.1 hsemi)).2
    have ha := (List.mem_filter.1 ((anti_output_perm vars build probe).mem_iff.1 hanti)).2
    have hmeets := (Bool.and_eq_true _ _ ▸ hs).2
    rw [hmeets] at ha
    contradiction
  · rw [semi_anti_perm_iff]
    exact lost_eq_nil vars hbound

/-- A row that both sides leave unbound is in neither output. -/
theorem not_semi_anti_perm :
    let vars : JoinVariables := ⟨[⟨"x"⟩], by decide, by decide⟩
    let build := [Solution.ofBindings [(⟨"y"⟩, .integer 1)]]
    let probe := [Solution.ofBindings [(⟨"z"⟩, .integer 2)]]
    ¬ ((semi.evaluate (.forOperator semi vars) build probe).output ++
      (anti.evaluate (.forOperator anti vars) build probe).output).Perm build := by
  intro vars build probe
  rw [semi_anti_perm_iff]
  decide +kernel

end Operator

end HashJoin
