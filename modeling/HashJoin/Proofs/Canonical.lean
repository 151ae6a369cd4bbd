import HashJoin.Proofs.Merge
import HashJoin.Proofs.Search
import Mathlib.Data.List.Induction

/-! Solutions are canonical. A solution is made from pairs of variables and terms, from an
earlier solution by binding a variable, or by merging two earlier ones; and the pairs of earlier
solutions may go into the making of later ones. The lists that are kept are built here once more
without any promise that they rise: by searching for the place of a variable, by writing to that
place, and by walking two lists side by side. They rise all the same, since each of these steps
relies on it and keeps it up, and they are the lists of the solutions that carry the promise. So
what a solution binds does not depend on the order of the pairs it is made from, only on which of
them comes last for each variable. -/

namespace HashJoin

namespace Binding

/-- The list of some pairs, each written to the place of its variable. -/
def collect (pairs : List Binding) : List Binding :=
  pairs.foldl (fun bs b => place b.1 b.2 bs) []

/-- The union of two lists that agree where both bind; the left one as it is, when it binds all
that the right one does. -/
def unite? (as bs : List Binding) : Option (List Binding) :=
  if (shared as bs).all fun terms => terms.1 = terms.2 then
    some (if bs.all fun b => (find? b.1 as).isSome then as else union as bs)
  else none

/-- The term of the last pair for a variable. -/
def last? (v : Variable) (pairs : List Binding) : Option Term := get? v pairs.reverse

theorem last?_concat (v : Variable) (pairs : List Binding) (b : Binding) :
    last? v (pairs ++ [b]) = if v = b.1 then some b.2 else last? v pairs := by
  rw [last?, List.reverse_append, List.reverse_singleton, List.singleton_append, get?_cons]
  rfl

/-- Where no variable stands twice, the pairs are what look-ups find. -/
theorem get?_eq_some_iff {pairs : List Binding} (h : (pairs.map Prod.fst).Nodup) {v : Variable}
    {t : Term} : get? v pairs = some t ↔ (v, t) ∈ pairs := by
  induction pairs with
  | nil => simp [get?]
  | cons b pairs ih =>
    obtain ⟨hb, hpairs⟩ := List.nodup_cons.1 h
    rw [get?_cons, List.mem_cons]
    by_cases hv : v = b.1
    · have hnot : (v, t) ∉ pairs := fun hm => hb (hv ▸ List.mem_map_of_mem hm)
      simp [hv, Prod.ext_iff, hv ▸ hnot, eq_comm]
    · simp [hv, Prod.ext_iff, ih hpairs]

/-- Where no variable stands twice, the order of the pairs makes no difference. -/
theorem last?_eq_get?_of_perm {pairs bs : List Binding} (hb : Rising bs) (h : pairs.Perm bs)
    (v : Variable) : last? v pairs = get? v bs := by
  have hperm := (List.reverse_perm pairs).trans h
  have hnodup := ((hperm.map Prod.fst).nodup_iff).2 hb.nodup
  refine Option.ext fun t => ?_
  rw [last?, get?_eq_some_iff hnodup, get?_eq_some_iff hb.nodup]
  exact hperm.mem_iff

end Binding

namespace Solution

/-! ### The lists of single solutions -/

theorem find?_bindings (s : Solution) (v : Variable) :
    Binding.find? v s.bindings = s.get? v := Binding.find?_eq_get? s.rising

theorem place_bindings (s : Solution) (v : Variable) (t : Term) :
    Binding.place v t s.bindings = (s.insert v t).bindings := Binding.place_eq_insert s.rising t

theorem collect_eq (pairs : List Binding) :
    Binding.collect pairs = (ofBindings pairs).bindings := by
  have hfold : pairs.foldl (fun bs b => Binding.place b.1 b.2 bs) empty.bindings =
      (pairs.foldl (fun s b => s.insert b.1 b.2) empty).bindings :=
    List.foldl_hom bindings fun s b => place_bindings s b.1 b.2
  exact hfold

theorem unite?_bindings (a b : Solution) :
    Binding.unite? a.bindings b.bindings = (a.merge? b).map bindings := by
  have hcovers : (b.bindings.all fun binding => (Binding.find? binding.1 a.bindings).isSome) =
      a.covers b := by
    simp only [find?_bindings]
    rfl
  rw [Binding.unite?, merge?, hcovers]
  split
  next h =>
    rw [if_pos (show a.compatible b = true from h)]
    cases a.covers b <;> rfl
  next h => rw [if_neg (show ¬ a.compatible b = true from h)]; rfl

/-! ### Pairs, and what is made of them -/

theorem ofBindings_concat (pairs : List Binding) (b : Binding) :
    ofBindings (pairs ++ [b]) = (ofBindings pairs).insert b.1 b.2 := by
  rw [ofBindings, List.foldl_append]
  rfl

/-- Of the pairs for one variable the last one has its way. -/
theorem get?_ofBindings (pairs : List Binding) (v : Variable) :
    (ofBindings pairs).get? v = Binding.last? v pairs := by
  induction pairs using List.reverseRecOn with
  | nil => rfl
  | append_singleton pairs b ih => rw [ofBindings_concat, get?_insert, Binding.last?_concat, ih]

/-- Binding a variable is putting a pair at the end. -/
theorem insert_eq_ofBindings (s : Solution) (v : Variable) (t : Term) :
    s.insert v t = ofBindings (s.bindings ++ [(v, t)]) := by
  rw [ofBindings_concat, ofBindings_bindings]

theorem ofBindings_of_perm {s : Solution} {pairs : List Binding} (h : pairs.Perm s.bindings) :
    ofBindings pairs = s := by
  refine ext fun v => ?_
  rw [get?_ofBindings]
  exact Binding.last?_eq_get?_of_perm s.rising h v

theorem eq_iff_get? {a b : Solution} : a = b ↔ ∀ v, a.get? v = b.get? v :=
  ⟨fun h v => by rw [h], ext⟩

end Solution

/-! ### Solutions made one after the other -/

/-- A way to make a solution from those that were made before. -/
inductive Making where
  /-- From pairs, into which the lists of all earlier solutions may go in any way. -/
  | gather (work : List (List Binding) → List Binding)
  /-- From the earlier solution at a place, by binding a variable. -/
  | bind (i : Nat) (v : Variable) (t : Term)
  | merge (i j : Nat)

namespace Making

/-- What is made, if there is something at the places and a merge is possible. -/
def solution? (made : List Solution) : Making → Option Solution
  | gather work => some (.ofBindings (work (made.map Solution.bindings)))
  | bind i v t => made[i]?.map (·.insert v t)
  | merge i j => made[i]?.bind fun a => made[j]?.bind fun b => a.merge? b

/-- The same with lists that are not known to rise. -/
def list? (made : List (List Binding)) : Making → Option (List Binding)
  | gather work => some (Binding.collect (work made))
  | bind i v t => made[i]?.map (Binding.place v t)
  | merge i j => made[i]?.bind fun as => made[j]?.bind fun bs => Binding.unite? as bs

section Run

variable {α β : Type} (make : List α → Making → Option α)

/-- All that is made, each thing after those made before it. -/
def run (made : List α) (makings : List Making) : List α :=
  makings.foldl (fun made m => made ++ (make made m).toList) made

/-- What was made before stays as it was. -/
theorem prefix_run (made : List α) (makings : List Making) : made <+: run make made makings := by
  induction makings generalizing made with
  | nil => exact List.prefix_refl made
  | cons m makings ih => exact (List.prefix_append made _).trans (ih _)

theorem prefix_run_append (made : List α) (makings more : List Making) :
    run make made makings <+: run make made (makings ++ more) := by
  rw [run.eq_1 _ _ (makings ++ more), List.foldl_append]
  exact prefix_run make _ more

variable {make}

/-- What is made step by step alike is made alike. -/
theorem run_map {make' : List β → Making → Option β} {f : α → β}
    (h : ∀ made m, make' (made.map f) m = (make made m).map f) (made : List α)
    (makings : List Making) : run make' (made.map f) makings = (run make made makings).map f := by
  refine List.foldl_hom (List.map f) fun made m => ?_
  rw [h, List.map_append]
  cases make made m <;> rfl

end Run

/-- The lists without a promise are those of the solutions. -/
theorem list?_map_bindings (made : List Solution) (m : Making) :
    m.list? (made.map Solution.bindings) = (m.solution? made).map Solution.bindings := by
  cases m with
  | gather work => exact congrArg some (Solution.collect_eq _)
  | bind i v t =>
    rw [list?, solution?, List.getElem?_map, Option.map_map, Option.map_map]
    refine congrFun (congrArg Option.map (funext fun s => ?_)) _
    exact s.place_bindings v t
  | merge i j =>
    simp only [list?, solution?, List.getElem?_map]
    cases made[i]? with
    | none => rfl
    | some a =>
      cases made[j]? with
      | none => rfl
      | some b => exact a.unite?_bindings b

/-- The lists of all that is made, and the solutions. -/
def lists (makings : List Making) : List (List Binding) :=
  run (fun made m => m.list? made) [] makings

def solutions (makings : List Making) : List Solution :=
  run (fun made m => m.solution? made) [] makings

theorem lists_eq (makings : List Making) :
    lists makings = (solutions makings).map Solution.bindings :=
  run_map (f := Solution.bindings) list?_map_bindings [] makings

theorem rising_of_mem {makings : List Making} {bs : List Binding} (h : bs ∈ lists makings) :
    Binding.Rising bs := by
  rw [lists_eq] at h
  obtain ⟨s, -, rfl⟩ := List.mem_map.1 h
  exact s.rising

/-- Solutions are canonical. The list collected from pairs rises strictly by variable; it is the
list of the solution made of the pairs, and a variable finds there the term of its last pair, if
it has one. All lists that come out of a sequence of makings rise strictly, and are those of the
solutions; what comes later leaves the earlier ones as they were; and two of them are equal just
when searches of every variable find the same. To bind a variable of a solution is to put a pair
at the end of its pairs, and its pairs give it back in any order. -/
theorem made_canonical :
    (∀ (pairs : List Binding) (v : Variable),
      Binding.collect pairs = (Solution.ofBindings pairs).bindings ∧
      Binding.Rising (Binding.collect pairs) ∧
      Binding.find? v (Binding.collect pairs) = Binding.last? v pairs ∧
      (Solution.ofBindings pairs).get? v = Binding.last? v pairs) ∧
    (∀ makings : List Making,
      lists makings = (solutions makings).map Solution.bindings ∧
      (∀ bs ∈ lists makings, Binding.Rising bs) ∧
      (∀ more, lists makings <+: lists (makings ++ more)) ∧
      ∀ as ∈ lists makings, ∀ bs ∈ lists makings,
        as = bs ↔ ∀ v, Binding.find? v as = Binding.find? v bs) ∧
    (∀ a b : Solution, a = b ↔ ∀ v, a.get? v = b.get? v) ∧
    (∀ (s : Solution) (v : Variable) (t : Term),
      s.insert v t = .ofBindings (s.bindings ++ [(v, t)]) ∧
      Binding.place v t s.bindings = (s.insert v t).bindings ∧
      Binding.find? v s.bindings = s.get? v) ∧
    ∀ (s : Solution) (pairs : List Binding), pairs.Perm s.bindings → .ofBindings pairs = s := by
  refine ⟨fun pairs v => ?_, fun makings => ?_, fun a b => Solution.eq_iff_get?,
    fun s v t => ?_, fun s pairs => Solution.ofBindings_of_perm⟩
  · have hlast := Solution.get?_ofBindings pairs v
    rw [Solution.collect_eq, Solution.find?_bindings]
    exact ⟨rfl, (Solution.ofBindings pairs).rising, hlast, hlast⟩
  · refine ⟨lists_eq makings, fun bs => rising_of_mem, fun more => ?_, fun as ha bs hb => ?_⟩
    · exact prefix_run_append _ [] makings more
    · refine ⟨fun h v => by rw [h], fun h => ?_⟩
      have hra := rising_of_mem ha
      have hrb := rising_of_mem hb
      refine hra.ext hrb fun v => ?_
      rw [← Binding.find?_eq_get? hra, ← Binding.find?_eq_get? hrb, h v]
  · exact ⟨s.insert_eq_ofBindings v t, s.place_bindings v t, s.find?_bindings v⟩

/-- Two solutions are made, one of them binds one more variable, and they are merged. The pairs of
all four give the merge once more, from the last to the first. -/
theorem made_canonical_reversed :
    let makings : List Making := [
      .gather fun _ => [(⟨"y"⟩, .integer 2), (⟨"x"⟩, .integer 1), (⟨"y"⟩, .integer 3)],
      .gather fun _ => [(⟨"z"⟩, .integer 4)], .bind 1 ⟨"y"⟩ (.integer 3), .merge 0 2,
      .gather fun made => made.flatten.reverse]
    let first : List Binding := [(⟨"x"⟩, .integer 1), (⟨"y"⟩, .integer 3)]
    let whole : List Binding := first ++ [(⟨"z"⟩, .integer 4)]
    (lists makings)[0]? = some first ∧ (lists makings)[3]? = some whole ∧
      (lists makings)[4]? = some whole ∧ Binding.Rising whole ∧
      (¬ ∀ v, Binding.find? v first = Binding.find? v whole) ∧
      Solution.ofBindings whole.reverse = .ofBindings whole := by
  intro makings first whole
  have hfirst : (lists makings)[0]? = some first := by decide +kernel
  have hwhole : (lists makings)[3]? = some whole := by decide +kernel
  have hlist : (Solution.ofBindings whole).bindings = whole := by decide +kernel
  obtain ⟨-, hmade, -, -, hperm⟩ := made_canonical
  obtain ⟨-, hrising, -, heq⟩ := hmade makings
  have hmem := List.mem_of_getElem? hwhole
  have hdiffer := (heq first (List.mem_of_getElem? hfirst) whole hmem).not.1 (by decide)
  exact ⟨hfirst, hwhole, by decide +kernel, hrising whole hmem, hdiffer,
    hperm _ whole.reverse (hlist.symm ▸ List.reverse_perm whole)⟩

end Making

end HashJoin
