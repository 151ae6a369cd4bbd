import HashJoin.Term

/-! Solutions, finite maps from variables to terms. A solution keeps its bindings in
strictly rising order of their variables, so two solutions with the same bindings are
the same value however they were built. -/

namespace HashJoin

abbrev Binding := Variable × Term

namespace Binding

/-- Strictly rising variables; in particular no variable is bound twice. -/
def Rising (bindings : List Binding) : Prop :=
  bindings.Pairwise fun a b => compare a.1 b.1 = .lt

instance (bindings : List Binding) : Decidable (Rising bindings) :=
  inferInstanceAs (Decidable (bindings.Pairwise _))

/-- Bind `v` to `t` in a rising list, in place of an earlier binding of `v`. -/
def insert (v : Variable) (t : Term) : List Binding → List Binding
  | [] => [(v, t)]
  | b :: bs => match compare v b.1 with
    | .lt => (v, t) :: b :: bs
    | .eq => (v, t) :: bs
    | .gt => b :: insert v t bs

theorem mem_insert {v : Variable} {t : Term} {c : Binding} {bs : List Binding}
    (h : c ∈ insert v t bs) : c = (v, t) ∨ c ∈ bs := by
  induction bs with
  | nil => simpa [insert] using h
  | cons b bs ih => unfold insert at h; split at h <;> grind

theorem Rising.insert {v : Variable} {t : Term} {bs : List Binding} (h : Rising bs) :
    Rising (insert v t bs) := by
  induction bs with
  | nil => simp [Binding.insert, Rising]
  | cons b bs ih =>
    have ⟨hb, hbs⟩ := List.pairwise_cons.1 h
    unfold Binding.insert
    split
    next hv =>
      refine List.pairwise_cons.2 ⟨fun c hc => ?_, h⟩
      rcases List.mem_cons.1 hc with rfl | hc
      · exact hv
      · exact Std.TransCmp.lt_trans hv (hb c hc)
    next hv =>
      have : v = b.1 := Std.LawfulEqOrd.eq_of_compare hv
      exact List.pairwise_cons.2 ⟨fun c hc => this ▸ hb c hc, hbs⟩
    next hv =>
      refine List.pairwise_cons.2 ⟨fun c hc => ?_, ih hbs⟩
      rcases mem_insert hc with rfl | hc
      · exact Std.OrientedCmp.lt_of_gt hv
      · exact hb c hc

theorem insert_of_lt {v : Variable} {bs : List Binding} (h : ∀ b ∈ bs, compare b.1 v = .lt)
    (t : Term) : insert v t bs = bs ++ [(v, t)] := by
  induction bs with
  | nil => rfl
  | cons b bs ih =>
    obtain ⟨hb, hbs⟩ := List.forall_mem_cons.1 h
    rw [insert, Std.OrientedCmp.gt_of_lt hb, ih hbs]
    rfl

def get? (v : Variable) (bindings : List Binding) : Option Term := bindings.lookup v

end Binding

structure Solution where
  bindings : List Binding
  rising : Binding.Rising bindings
  deriving DecidableEq

namespace Solution

def empty : Solution := ⟨[], List.Pairwise.nil⟩

/-- The solution with `v` bound to `t` and all else as before. -/
def insert (s : Solution) (v : Variable) (t : Term) : Solution :=
  ⟨Binding.insert v t s.bindings, s.rising.insert⟩

/-- The solution of a list of bindings; of several for one variable the last one stays. -/
def ofBindings (bindings : List Binding) : Solution :=
  bindings.foldl (fun s b => s.insert b.1 b.2) empty

/-- Rising bindings are appended one by one. -/
theorem bindings_foldl_insert (bs : List Binding) {s : Solution}
    (h : Binding.Rising (s.bindings ++ bs)) :
    (bs.foldl (fun s b => s.insert b.1 b.2) s).bindings = s.bindings ++ bs := by
  induction bs generalizing s with
  | nil => exact (List.append_nil s.bindings).symm
  | cons b bs ih =>
    have hlast : (s.insert b.1 b.2).bindings = s.bindings ++ [b] :=
      Binding.insert_of_lt (fun a ha => (List.pairwise_append.1 h).2.2 a ha b List.mem_cons_self) b.2
    have happ : (s.insert b.1 b.2).bindings ++ bs = s.bindings ++ b :: bs := by
      rw [hlast, List.append_assoc, List.singleton_append]
    rw [List.foldl_cons, ih (happ ▸ h), happ]

theorem ofBindings_bindings (s : Solution) : ofBindings s.bindings = s := by
  have hall := bindings_foldl_insert s.bindings (s := empty) s.rising
  obtain ⟨bindings, rising⟩ := s
  rw [Solution.mk.injEq]
  exact hall

def get? (s : Solution) (v : Variable) : Option Term := Binding.get? v s.bindings

def isBound (s : Solution) (v : Variable) : Bool := (s.get? v).isSome

def size (s : Solution) : Nat := s.bindings.length

def isEmpty (s : Solution) : Bool := s.bindings.isEmpty

instance : ToString Solution where
  toString s := "\x7b" ++ ", ".intercalate (s.bindings.map fun b => toString b.1 ++ "=" ++ toString b.2)
    ++ "\x7d"

end Solution

end HashJoin
