import HashJoin.Config.Error
import HashJoin.Variable

/-! The variables that a join is keyed on, in declared order. Each has a name and none
occurs twice. A list is read from the left and its first fault is reported; a name is
looked at for being empty before it is looked up among the earlier ones. The empty list
is valid and asks for a cross product. -/

namespace HashJoin

structure JoinVariables where
  vars : List Variable
  named : ∀ v ∈ vars, v.isEmpty = false
  distinct : vars.Nodup
  deriving DecidableEq

namespace JoinVariables

/-- The first fault of a list, when the variables of `seen` came before it. -/
def firstFault (seen : List Variable) : List Variable → Option ConfigError
  | [] => none
  | v :: vs =>
    if v.isEmpty then some .unnamedVariable
    else if v ∈ seen then some (.repeatedVariable v.name)
    else firstFault (v :: seen) vs

theorem sound_of_firstFault {seen vs : List Variable} (h : firstFault seen vs = none) :
    (∀ v ∈ vs, v.isEmpty = false) ∧ (∀ v ∈ vs, v ∉ seen) ∧ vs.Nodup := by
  induction vs generalizing seen with
  | nil => simp
  | cons v vs ih =>
    unfold firstFault at h
    split at h
    · contradiction
    split at h
    · contradiction
    have := ih h
    grind

theorem firstFault_eq_none {seen vs : List Variable} (hnamed : ∀ v ∈ vs, v.isEmpty = false)
    (hnew : ∀ v ∈ vs, v ∉ seen) (hdistinct : vs.Nodup) : firstFault seen vs = none := by
  induction vs generalizing seen with
  | nil => rfl
  | cons v vs ih =>
    obtain ⟨hv, hvs⟩ := List.forall_mem_cons.1 hnamed
    obtain ⟨hvnew, hvsnew⟩ := List.forall_mem_cons.1 hnew
    obtain ⟨hnot, hdistinct⟩ := List.nodup_cons.1 hdistinct
    rw [firstFault, hv, if_neg Bool.false_ne_true, if_neg hvnew]
    refine ih hvs (fun w hw hmem => ?_) hdistinct
    rcases List.mem_cons.1 hmem with rfl | hseen
    · exact hnot hw
    · exact hvsnew w hw hseen

def ofList (vars : List Variable) : Except ConfigError JoinVariables :=
  match h : firstFault [] vars with
  | none => .ok ⟨vars, (sound_of_firstFault h).1, (sound_of_firstFault h).2.2⟩
  | some fault => .error fault

theorem ofList_vars (vars : JoinVariables) : ofList vars.vars = .ok vars := by
  have hnone := firstFault_eq_none vars.named (fun v _ => List.not_mem_nil) vars.distinct
  unfold ofList
  split
  next => rfl
  next fault hfault => rw [hnone] at hfault; contradiction

/-- No variables: every solution has the same key. -/
def crossProduct : JoinVariables := ⟨[], by simp, .nil⟩

def isCrossProduct (vars : JoinVariables) : Bool := vars.vars.isEmpty

def size (vars : JoinVariables) : Nat := vars.vars.length

instance : ToString JoinVariables where
  toString vars := "[" ++ ", ".intercalate (vars.vars.map toString) ++ "]"

end JoinVariables

end HashJoin
