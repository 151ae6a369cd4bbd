import HashJoin.Solution.Lookup

/-! Search in rising lists of bindings. A search halves the stretch of places that can still
hold a variable. It ends at the place of the variable's binding, or at the place where a binding
of it belongs. In a rising list all before that place comes before the variable and all after it
comes after the variable, so to read there is to look the variable up, and to write there is to
insert a binding. -/

namespace HashJoin

namespace Binding

/-- Where a search for a variable ends. -/
inductive Spot where
  /-- The place of its binding. -/
  | taken (i : Nat)
  /-- The place where a binding of it belongs. -/
  | free (i : Nat)

variable (v : Variable) (t : Term) (bs : List Binding)

theorem middle_lt {low high : Nat} (h : high ≤ bs.length) (hlow : low < high) :
    (low + high) / 2 < bs.length := by
  omega

theorem middle_le {low high : Nat} (h : high ≤ bs.length) (hlow : low < high) :
    (low + high) / 2 ≤ bs.length :=
  Nat.le_of_lt (middle_lt bs h hlow)

/-- Search in the places from `low` on and before `high`. -/
def searchIn (low high : Nat) (h : high ≤ bs.length) : Spot :=
  if hlow : low < high then
    have hmiddle := middle_lt bs h hlow
    match compare bs[(low + high) / 2].1 v with
    | .lt => searchIn ((low + high) / 2 + 1) high h
    | .eq => .taken ((low + high) / 2)
    | .gt => searchIn low ((low + high) / 2) (middle_le bs h hlow)
  else .free low
  termination_by high - low

def search : Spot := searchIn v bs 0 bs.length (Nat.le_refl _)

/-- The term at the place of a variable. -/
def find? : Option Term :=
  match search v bs with
  | .taken i => bs[i]?.map Prod.snd
  | .free _ => none

/-- Bind `v` to `t` at its place. -/
def place : List Binding :=
  match search v bs with
  | .taken i => bs.modify i fun b => (b.1, t)
  | .free i => bs.insertIdx i (v, t)

/-! ### Where a search ends -/

/-- The list falls into two parts at a spot: variables before `v`, and variables after it. -/
def Spot.Parts : Spot → Prop
  | .taken i => ∃ before t after, bs = before ++ (v, t) :: after ∧ before.length = i ∧
      ∀ b ∈ before, compare b.1 v = .lt
  | .free i => ∃ before after, bs = before ++ after ∧ before.length = i ∧
      (∀ b ∈ before, compare b.1 v = .lt) ∧ ∀ b ∈ after, compare v b.1 = .lt

variable {v t bs}

theorem take_append_cons_drop {i : Nat} (h : i < bs.length) :
    bs.take i ++ bs[i] :: bs.drop (i + 1) = bs := by
  rw [← List.drop_eq_getElem_cons h, List.take_append_drop]

/-- Every binding of a rising list parts it. -/
theorem Rising.at {i : Nat} (hr : Rising bs) (h : i < bs.length) :
    (∀ b ∈ bs.take i, compare b.1 bs[i].1 = .lt) ∧
      ∀ b ∈ bs.drop (i + 1), compare bs[i].1 b.1 = .lt := by
  have hparts : Rising (bs.take i ++ bs[i] :: bs.drop (i + 1)) := by
    rwa [take_append_cons_drop h]
  obtain ⟨-, hafter, hbefore⟩ := List.pairwise_append.1 hparts
  exact ⟨fun b hb => hbefore b hb _ List.mem_cons_self, (List.pairwise_cons.1 hafter).1⟩

/-- A stretch may be halved as long as all outside of it is on its side of the variable. -/
theorem searchIn_parts (hr : Rising bs) {low high : Nat} (h : high ≤ bs.length)
    (hle : low ≤ high) (hlow : ∀ b ∈ bs.take low, compare b.1 v = .lt)
    (hhigh : ∀ b ∈ bs.drop high, compare v b.1 = .lt) :
    (searchIn v bs low high h).Parts v bs := by
  fun_induction searchIn v bs low high h with
  | case1 low high h hlt hmiddle hcmp ih =>
    have hbefore := (hr.at hmiddle).1
    refine ih (by omega) (fun b hb => ?_) hhigh
    rw [List.take_add_one, List.getElem?_eq_getElem hmiddle, List.mem_append] at hb
    rcases hb with hb | hb
    · exact Std.TransCmp.lt_trans (hbefore b hb) hcmp
    · rw [List.mem_singleton.1 hb, hcmp]
  | case2 low high h hlt hmiddle hcmp =>
    have hvar : bs[(low + high) / 2].1 = v := Std.LawfulEqOrd.eq_of_compare hcmp
    refine ⟨bs.take ((low + high) / 2), bs[(low + high) / 2].2, bs.drop ((low + high) / 2 + 1),
      ?_, List.length_take_of_le (by omega), hvar ▸ (hr.at hmiddle).1⟩
    rw [← hvar]
    exact (take_append_cons_drop hmiddle).symm
  | case3 low high h hlt hmiddle hcmp ih =>
    have hgt := Std.OrientedCmp.lt_of_gt hcmp
    have hafter := (hr.at hmiddle).2
    refine ih (by omega) hlow fun b hb => ?_
    rw [List.drop_eq_getElem_cons hmiddle] at hb
    rcases List.mem_cons.1 hb with rfl | hb
    · exact hgt
    · exact Std.TransCmp.lt_trans hgt (hafter b hb)
  | case4 low high h hlt =>
    obtain rfl : low = high := by omega
    exact ⟨bs.take low, bs.drop low, (List.take_append_drop low bs).symm,
      List.length_take_of_le h, hlow, hhigh⟩

theorem search_parts (hr : Rising bs) : (search v bs).Parts v bs :=
  searchIn_parts hr _ (Nat.zero_le _) (fun _ hb => by simp at hb) (fun _ hb => by simp at hb)

/-! ### Reading and writing at a spot -/

theorem get?_append_of_lt {before : List Binding} (h : ∀ b ∈ before, compare b.1 v = .lt)
    (after : List Binding) : get? v (before ++ after) = get? v after := by
  induction before with
  | nil => rfl
  | cons b before ih =>
    obtain ⟨hb, hbefore⟩ := List.forall_mem_cons.1 h
    have hne : v ≠ b.1 := fun e => by simp [e] at hb
    rw [List.cons_append, get?_cons, if_neg hne, ih hbefore]

/-- In a rising list a search finds what a look-up finds. -/
theorem find?_eq_get? (hr : Rising bs) : find? v bs = get? v bs := by
  have hparts := search_parts (v := v) hr
  unfold find?
  split
  next i hi =>
    rw [hi] at hparts
    obtain ⟨before, t, after, rfl, rfl, hbefore⟩ := hparts
    rw [get?_append_of_lt hbefore, get?_cons, if_pos rfl]
    simp
  next i hi =>
    rw [hi] at hparts
    obtain ⟨before, after, rfl, -, hbefore, hafter⟩ := hparts
    rw [get?_append_of_lt hbefore, get?_eq_none hafter]

theorem insert_append_of_lt {before : List Binding} (h : ∀ b ∈ before, compare b.1 v = .lt)
    (t : Term) (after : List Binding) :
    insert v t (before ++ after) = before ++ insert v t after := by
  induction before with
  | nil => rfl
  | cons b before ih =>
    obtain ⟨hb, hbefore⟩ := List.forall_mem_cons.1 h
    rw [List.cons_append, insert, Std.OrientedCmp.gt_of_lt hb, ih hbefore]
    rfl

theorem insert_of_gt {after : List Binding} (h : ∀ b ∈ after, compare v b.1 = .lt) (t : Term) :
    insert v t after = (v, t) :: after := by
  cases after with
  | nil => rfl
  | cons b after => rw [insert, h b List.mem_cons_self]

/-- In a rising list a binding is inserted by writing it to the place where a search ends. -/
theorem place_eq_insert (hr : Rising bs) (t : Term) : place v t bs = insert v t bs := by
  have hparts := search_parts (v := v) hr
  unfold place
  split
  next i hi =>
    rw [hi] at hparts
    obtain ⟨before, u, after, rfl, rfl, hbefore⟩ := hparts
    have hself : compare v v = .eq := Std.LawfulEqOrd.compare_eq_iff_eq.2 rfl
    rw [insert_append_of_lt hbefore, insert, hself]
    exact List.modifyTailIdx_add _ 0 before ((v, u) :: after)
  next i hi =>
    rw [hi] at hparts
    obtain ⟨before, after, rfl, rfl, hbefore, hafter⟩ := hparts
    rw [insert_append_of_lt hbefore, insert_of_gt hafter]
    exact List.modifyTailIdx_add _ 0 before after

end Binding

end HashJoin
