import HashJoin.Solution

/-! Compatibility and union of solutions. Two solutions are compatible when they agree
on every variable that both bind; their union then binds what either binds. Both walk
the two rising lists of bindings side by side. -/

namespace HashJoin

namespace Binding

/-- The terms that two rising lists have for the variables bound in both. -/
def shared : List Binding → List Binding → List (Term × Term)
  | [], _ => []
  | _ :: _, [] => []
  | a :: as, b :: bs => match compare a.1 b.1 with
    | .lt => shared as (b :: bs)
    | .gt => shared (a :: as) bs
    | .eq => (a.2, b.2) :: shared as bs
  termination_by as bs => as.length + bs.length

/-- All bindings of two rising lists; a variable bound in both keeps its left term. -/
def union : List Binding → List Binding → List Binding
  | [], bs => bs
  | a :: as, [] => a :: as
  | a :: as, b :: bs => match compare a.1 b.1 with
    | .lt => a :: union as (b :: bs)
    | .gt => b :: union (a :: as) bs
    | .eq => a :: union as bs
  termination_by as bs => as.length + bs.length

theorem mem_union {c : Binding} {as bs : List Binding} (h : c ∈ union as bs) :
    c ∈ as ∨ c ∈ bs := by
  fun_induction union as bs <;> grind

theorem Rising.union {as bs : List Binding} (ha : Rising as) (hb : Rising bs) :
    Rising (union as bs) := by
  fun_induction Binding.union as bs with
  | case1 => exact hb
  | case2 => exact ha
  | case3 a as b bs hab ih =>
    have ⟨ha, has⟩ := List.pairwise_cons.1 ha
    have ⟨hb', _⟩ := List.pairwise_cons.1 hb
    refine List.pairwise_cons.2 ⟨fun c hc => ?_, ih has hb⟩
    rcases mem_union hc with hc | hc
    · exact ha c hc
    · rcases List.mem_cons.1 hc with rfl | hc
      · exact hab
      · exact Std.TransCmp.lt_trans hab (hb' c hc)
  | case4 a as b bs hab ih =>
    have ⟨ha', _⟩ := List.pairwise_cons.1 ha
    have ⟨hb, hbs⟩ := List.pairwise_cons.1 hb
    have hba := Std.OrientedCmp.lt_of_gt hab
    refine List.pairwise_cons.2 ⟨fun c hc => ?_, ih ha hbs⟩
    rcases mem_union hc with hc | hc
    · rcases List.mem_cons.1 hc with rfl | hc
      · exact hba
      · exact Std.TransCmp.lt_trans hba (ha' c hc)
    · exact hb c hc
  | case5 a as b bs hab ih =>
    have ⟨ha, has⟩ := List.pairwise_cons.1 ha
    have ⟨hb, hbs⟩ := List.pairwise_cons.1 hb
    have : a.1 = b.1 := Std.LawfulEqOrd.eq_of_compare hab
    refine List.pairwise_cons.2 ⟨fun c hc => ?_, ih has hbs⟩
    rcases mem_union hc with hc | hc
    · exact ha c hc
    · exact this ▸ hb c hc

end Binding

namespace Solution

/-- Whether the solutions agree on every variable bound in both. -/
def compatible (a b : Solution) : Bool :=
  (Binding.shared a.bindings b.bindings).all fun terms => terms.1 = terms.2

/-- Whether some variable is bound in both. -/
def sharesVariable (a b : Solution) : Bool := !(Binding.shared a.bindings b.bindings).isEmpty

/-- Whether `a` binds every variable of `b`. -/
def covers (a b : Solution) : Bool := b.bindings.all fun binding => a.isBound binding.1

/-- The bindings of both solutions. -/
def union (a b : Solution) : Solution :=
  ⟨Binding.union a.bindings b.bindings, a.rising.union b.rising⟩

/-- Whether merging `b` into `a` leaves `a` as it is. -/
def absorbs (a b : Solution) : Bool := a.compatible b && a.covers b

/-- The union of two compatible solutions. Nothing new is built when `a` absorbs `b`. -/
def merge? (a b : Solution) : Option Solution :=
  if a.compatible b then some (if a.covers b then a else a.union b) else none

end Solution

end HashJoin
