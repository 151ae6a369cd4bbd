import HashJoin.SharedIndex
import Mathlib.Data.List.Induction
import Mathlib.Data.List.Nodup

/-! What a configuration is checked for, and in which order. A list of join variables is
valid if no name is empty and none comes twice; otherwise the leftmost place with a fault
says which one is reported. Of the settings of a draft the last of each sort counts, whatever
stands between them, and the index that is made of a draft depends on these only. -/

namespace HashJoin

namespace JoinVariables

/-! ### The first fault of a list -/

/-- No name is empty and none comes twice. -/
def Valid (vars : List Variable) : Prop :=
  (∀ v ∈ vars, v.name ≠ "") ∧ (vars.map Variable.name).Nodup

instance : DecidablePred Valid := fun _ => inferInstanceAs (Decidable (_ ∧ _))

/-- What is wrong with a variable that comes after others. -/
def faultAfter (before : List Variable) (v : Variable) : Option ConfigError :=
  if v.name = "" then some .unnamedVariable
  else if v ∈ before then some (.repeatedVariable v.name)
  else none

/-- What is wrong at a place of a list. -/
def faultAt (vars : List Variable) (i : Nat) : Option ConfigError :=
  vars[i]?.bind (faultAfter (vars.take i))

/-- The leftmost fault, if `fault` says what is wrong at each place. -/
def Leftmost (fault : Nat → Option ConfigError) (e : ConfigError) : Prop :=
  ∃ i, fault i = some e ∧ ∀ j < i, fault j = none

/-- The fault at the leftmost place that has one. -/
def FirstFault (vars : List Variable) (e : ConfigError) : Prop := Leftmost (faultAt vars) e

theorem leftmost_iff (fault : Nat → Option ConfigError) (e : ConfigError) :
    Leftmost fault e ↔
      fault 0 = some e ∨ fault 0 = none ∧ Leftmost (fun i => fault (i + 1)) e := by
  constructor
  · rintro ⟨_ | i, hi, hbefore⟩
    · exact .inl hi
    · exact .inr ⟨hbefore 0 i.succ_pos, i, hi, fun j hj => hbefore (j + 1) (Nat.succ_lt_succ hj)⟩
  · rintro (h | ⟨h, i, hi, hbefore⟩)
    · exact ⟨0, h, fun j hj => absurd hj j.not_lt_zero⟩
    · refine ⟨i + 1, hi, fun j hj => ?_⟩
      cases j with
      | zero => exact h
      | succ j => exact hbefore j (Nat.lt_of_succ_lt_succ hj)

theorem faultAfter_congr {before before' : List Variable} (h : ∀ v, v ∈ before ↔ v ∈ before') :
    faultAfter before = faultAfter before' := by
  funext v
  simp only [faultAfter, h]

/-- Reading from the left stops at the leftmost fault. The variables read so far are kept in
reverse, and only which ones they are matters. -/
theorem firstFault_eq_some {seen vars : List Variable} {e : ConfigError} :
    firstFault seen vars = some e ↔
      Leftmost (fun i => vars[i]?.bind (faultAfter (seen ++ vars.take i))) e := by
  induction vars generalizing seen with
  | nil => simp [firstFault, Leftmost]
  | cons v vars ih =>
    have hseen : ∀ i, faultAfter (seen ++ (v :: vars).take (i + 1)) =
        faultAfter ((v :: seen) ++ vars.take i) := fun i =>
      faultAfter_congr fun w => by simp [or_left_comm]
    rw [leftmost_iff, firstFault]
    simp only [hseen, List.getElem?_cons_succ, ← ih, List.getElem?_cons_zero, Option.bind_some,
      List.take_zero, List.append_nil]
    -- what is found wrong here ends the reading, and otherwise `v` is one more seen
    by_cases hempty : v.name = ""
    · simp [faultAfter, Variable.isEmpty, hempty]
    by_cases hmem : v ∈ seen
    · simp [faultAfter, Variable.isEmpty, hempty, hmem]
    · simp [faultAfter, Variable.isEmpty, hempty, hmem]

theorem valid_iff {vars : List Variable} :
    Valid vars ↔ (∀ v ∈ vars, v.isEmpty = false) ∧ vars.Nodup := by
  have hinj : Function.Injective Variable.name := fun ⟨_⟩ ⟨_⟩ h => congrArg Variable.mk h
  rw [Valid, List.nodup_map_iff hinj]
  simp [Variable.isEmpty]

theorem valid (joinVariables : JoinVariables) : Valid joinVariables.vars :=
  valid_iff.2 ⟨joinVariables.named, joinVariables.distinct⟩

theorem ofList_eq_ok {vars : List Variable} {joinVariables : JoinVariables} :
    ofList vars = .ok joinVariables ↔ joinVariables.vars = vars := by
  constructor
  · intro h
    unfold ofList at h
    split at h
    · cases h
      rfl
    · contradiction
  · rintro rfl
    exact ofList_vars joinVariables

/-- Exactly the valid lists are accepted. -/
theorem exists_ofList_eq_ok {vars : List Variable} :
    (∃ joinVariables, ofList vars = .ok joinVariables) ↔ Valid vars := by
  constructor
  · rintro ⟨joinVariables, h⟩
    rw [← ofList_eq_ok.1 h]
    exact joinVariables.valid
  · intro h
    obtain ⟨hnamed, hdistinct⟩ := valid_iff.1 h
    exact ⟨⟨vars, hnamed, hdistinct⟩, ofList_eq_ok.2 rfl⟩

theorem ofList_eq_error {vars : List Variable} {e : ConfigError} :
    ofList vars = .error e ↔ FirstFault vars e := by
  have hfirst : firstFault [] vars = some e ↔ FirstFault vars e := firstFault_eq_some
  rw [← hfirst]
  unfold ofList
  split
  next hnone => simp [hnone]
  next fault hsome => simp [hsome]

end JoinVariables

open JoinVariables

/-! ### Errors that are passed on -/

theorem map_eq_ok_iff {ε α β : Type} {f : α → β} {r : Except ε α} {b : β} :
    r.map f = .ok b ↔ ∃ a, r = .ok a ∧ f a = b := by
  cases r <;> simp [Except.map]

theorem map_eq_error_iff {ε α β : Type} {f : α → β} {r : Except ε α} {e : ε} :
    r.map f = .error e ↔ r = .error e := by
  cases r <;> simp [Except.map]

namespace Config.Draft

variable {d : Draft}

theorem config_eq_ok {c : Config} :
    d.config = .ok c ↔ d.vars = some c.joinVariables.vars ∧ c.policy = d.policy := by
  unfold config
  cases d.vars with
  | none => simp
  | some vars =>
    simp only [map_eq_ok_iff, ofList_eq_ok, Option.some.injEq]
    constructor
    · rintro ⟨joinVariables, rfl, rfl⟩
      exact ⟨rfl, rfl⟩
    · rintro ⟨rfl, hpolicy⟩
      exact ⟨c.joinVariables, rfl, hpolicy ▸ rfl⟩

theorem exists_config_eq_ok :
    (∃ c, d.config = .ok c) ↔ ∃ vars, d.vars = some vars ∧ Valid vars := by
  simp only [config_eq_ok]
  constructor
  · rintro ⟨c, hvars, -⟩
    exact ⟨_, hvars, c.joinVariables.valid⟩
  · rintro ⟨vars, hvars, hvalid⟩
    obtain ⟨joinVariables, hof⟩ := exists_ofList_eq_ok.2 hvalid
    exact ⟨⟨joinVariables, d.policy⟩, ofList_eq_ok.1 hof ▸ hvars, rfl⟩

theorem config_eq_error {e : ConfigError} :
    d.config = .error e ↔
      d.vars = none ∧ e = .noVariables ∨ ∃ vars, d.vars = some vars ∧ FirstFault vars e := by
  unfold config
  cases d.vars with
  | none => simp [eq_comm]
  | some vars => simp [map_eq_error_iff, ofList_eq_error]

end Config.Draft

namespace SharedIndex

/-! ### The settings that count -/

namespace Setting

def vars? : Setting → Option (List Variable)
  | .config (.vars vars) => some vars
  | _ => none

/-- The policy that a setting asks for, by its name or by a flag. -/
def policy? : Setting → Option KeyPolicy
  | .config (.policy policy) => some policy
  | .config (.indexUnbound flag) => some (.ofFlag flag)
  | _ => none

def buckets? : Setting → Option Buckets
  | .buckets map => some map
  | _ => none

/-- The last setting of a sort. -/
def last {α : Type} (sort : Setting → Option α) (settings : List Setting) : Option α :=
  (settings.filterMap sort).getLast?

theorem last_concat {α : Type} (sort : Setting → Option α) (settings : List Setting)
    (setting : Setting) :
    last sort (settings ++ [setting]) = (sort setting).or (last sort settings) := by
  unfold last
  rw [List.filterMap_append, List.getLast?_append]
  cases h : sort setting <;> simp [h]

end Setting

open Setting

namespace Draft

/-- A setting replaces the part of its sort and leaves the others. -/
theorem set_eq (d : Draft) (setting : Setting) :
    d.set setting =
      { config :=
          { vars := setting.vars?.or d.config.vars
            policy := setting.policy?.getD d.config.policy }
        buckets := setting.buckets?.or d.buckets } := by
  rcases setting with (_ | _ | _) | _ <;> rfl

theorem ofSettings_eq (settings : List Setting) :
    ofSettings settings =
      { config :=
          { vars := last vars? settings
            policy := (last policy? settings).getD .reject }
        buckets := last buckets? settings } := by
  -- on the end of the list: the last setting decides about its own sort
  induction settings using List.reverseRecOn with
  | nil => rfl
  | append_singleton settings setting ih =>
    rw [ofSettings, List.foldl_concat, ← ofSettings, set_eq, ih]
    simp only [last_concat]
    cases policy? setting <;> rfl

variable {d : Draft} {owner : Nat}

theorem index_eq_ok {ix : SharedIndex} :
    d.index owner = .ok ix ↔
      ∃ config map, d.config.config = .ok config ∧ d.buckets = some map ∧ map.size = 0 ∧
        ofIndex { owner, config, buckets := map } = ix := by
  unfold index onMap Index.onMap
  cases d.config.config with
  | error e => simp
  | ok config =>
    cases d.buckets with
    | none => simp
    | some map => by_cases hempty : map.size = 0 <;> simp [hempty, Except.map]

theorem index_eq_error {e : ConfigError} :
    d.index owner = .error e ↔
      d.config.config = .error e ∨
        (∃ config, d.config.config = .ok config) ∧
          (d.buckets = none ∧ e = .noMap ∨
            ∃ map, d.buckets = some map ∧ map.size ≠ 0 ∧ e = .mapNotEmpty map.size) := by
  unfold index onMap Index.onMap
  cases d.config.config with
  | error e => simp
  | ok config =>
    cases d.buckets with
    | none => simp [eq_comm]
    | some map => by_cases hempty : map.size = 0 <;> simp [hempty, Except.map, eq_comm (a := e)]

variable {settings : List Setting}

theorem index_ofSettings_eq_ok {ix : SharedIndex} :
    (ofSettings settings).index owner = .ok ix ↔
      ∃ joinVariables map, last vars? settings = some joinVariables.vars ∧
        last buckets? settings = some map ∧ map.size = 0 ∧
        ofIndex
          { owner, config := ⟨joinVariables, (last policy? settings).getD .reject⟩
            buckets := map } = ix := by
  rw [index_eq_ok, ofSettings_eq]
  simp only [Config.Draft.config_eq_ok]
  constructor
  · rintro ⟨⟨joinVariables, _⟩, map, ⟨hvars, rfl⟩, hmap, hempty, hix⟩
    exact ⟨joinVariables, map, hvars, hmap, hempty, hix⟩
  · rintro ⟨joinVariables, map, hvars, hmap, hempty, hix⟩
    exact ⟨⟨joinVariables, _⟩, map, ⟨hvars, rfl⟩, hmap, hempty, hix⟩

theorem exists_index_ofSettings :
    (∃ ix, (ofSettings settings).index owner = .ok ix) ↔
      ∃ vars map, last vars? settings = some vars ∧ Valid vars ∧
        last buckets? settings = some map ∧ map.size = 0 := by
  have hchecked : (∃ config, (ofSettings settings).config.config = .ok config) ↔
      ∃ vars, last vars? settings = some vars ∧ Valid vars := by
    rw [Config.Draft.exists_config_eq_ok, ofSettings_eq]
  have hbuckets : (ofSettings settings).buckets = last buckets? settings := by
    rw [ofSettings_eq]
  simp only [index_eq_ok, hbuckets]
  constructor
  · rintro ⟨_, config, map, hconfig, hmap, hempty, -⟩
    obtain ⟨vars, hvars, hvalid⟩ := hchecked.1 ⟨config, hconfig⟩
    exact ⟨vars, map, hvars, hvalid, hmap, hempty⟩
  · rintro ⟨vars, map, hvars, hvalid, hmap, hempty⟩
    obtain ⟨config, hconfig⟩ := hchecked.2 ⟨vars, hvars, hvalid⟩
    exact ⟨_, config, map, hconfig, hmap, hempty, rfl⟩

theorem index_ofSettings_eq_error {e : ConfigError} :
    (ofSettings settings).index owner = .error e ↔
      last vars? settings = none ∧ e = .noVariables ∨
        ∃ vars, last vars? settings = some vars ∧
          (FirstFault vars e ∨ Valid vars ∧
            (last buckets? settings = none ∧ e = .noMap ∨
              ∃ map, last buckets? settings = some map ∧ map.size ≠ 0 ∧
                e = .mapNotEmpty map.size)) := by
  rw [index_eq_error, ofSettings_eq, Config.Draft.config_eq_error,
    Config.Draft.exists_config_eq_ok, or_assoc]
  refine or_congr_right ?_
  rw [← exists_and_right, ← exists_or]
  simp only [and_assoc, ← and_or_left]

end Draft

end SharedIndex

end HashJoin
