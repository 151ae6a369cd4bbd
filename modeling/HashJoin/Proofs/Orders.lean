import HashJoin.Buckets.Order
import Mathlib.Data.List.Induction

/-! Orders and equality. Terms and keys are compared in one way and tested for equality in
another: doubles by the total order of bit patterns and by the patterns themselves, terms of
different kinds by their kinds and not at all, keys by their slots and by digest and slots. Each
comparison is a total order all the same, and finds two values equal just when the test does. So
a map that goes by the order of its keys and one that goes by their digests take the same keys
for one. -/

namespace HashJoin

/-- A comparison that is a total order, with a test that tells which values are equal in it. -/
structure OrdersBy {α : Type} (cmp : α → α → Ordering) (same : α → α → Bool) : Prop where
  swap : ∀ a b, cmp b a = (cmp a b).swap
  antisymm : ∀ a b, (cmp a b).isLE = true → (cmp b a).isLE = true → same a b = true
  trans : ∀ a b c, (cmp a b).isLE = true → (cmp b c).isLE = true → (cmp a c).isLE = true
  total : ∀ a b, (cmp a b).isLE = true ∨ (cmp b a).isLE = true
  eq_iff : ∀ a b, cmp a b = .eq ↔ same a b = true

theorem OrdersBy.of_lawful {α : Type} {cmp : α → α → Ordering} {same : α → α → Bool}
    [Std.TransCmp cmp] [Std.LawfulEqCmp cmp] (h : ∀ a b, same a b = true ↔ a = b) :
    OrdersBy cmp same where
  swap a b := Std.OrientedCmp.eq_swap
  antisymm a b hab hba :=
    (h a b).2 (Std.LawfulEqCmp.eq_of_compare (Std.OrientedCmp.isLE_antisymm hab hba))
  trans a b c := Std.TransCmp.isLE_trans
  total a b := by
    have hswap : cmp b a = (cmp a b).swap := Std.OrientedCmp.eq_swap
    rw [hswap]
    cases cmp a b <;> simp
  eq_iff a b := Std.LawfulEqCmp.compare_eq_iff_eq.trans (h a b).symm

namespace Binary64

/-- Whether a bit pattern comes before another one: negative numbers before positive ones, and
of two with one sign that of the smaller magnitude, unless they are negative. -/
def precedes (x y : Binary64) : Bool :=
  match x.isNegative, y.isNegative with
  | true, false => true
  | false, true => false
  | false, false => x.bits < y.bits
  | true, true => y.bits < x.bits

theorem isNegative_iff {x : Binary64} : x.isNegative = true ↔ signWeight ≤ x.bits.toNat :=
  decide_eq_true_iff

theorem rank_of_negative {x : Binary64} (h : x.isNegative = true) :
    x.rank = 2 * signWeight - 1 - x.bits.toNat :=
  if_neg (Nat.not_lt.2 (isNegative_iff.1 h))

theorem rank_of_positive {x : Binary64} (h : x.isNegative = false) :
    x.rank = x.bits.toNat + signWeight :=
  if_pos (Nat.lt_of_not_le fun hle => Bool.eq_false_iff.1 h (isNegative_iff.2 hle))

theorem compare_eq_lt_iff (x y : Binary64) : compare x y = .lt ↔ x.precedes y = true := by
  have hx := x.bits.toNat_lt
  have hy := y.bits.toNat_lt
  have hweight : signWeight = 0x8000000000000000 := rfl
  have hcompare : compare x y = compare x.rank y.rank := rfl
  rw [hcompare, Nat.compare_eq_lt, precedes]
  cases hnx : x.isNegative <;> cases hny : y.isNegative
  case false.false =>
    rw [rank_of_positive hnx, rank_of_positive hny]
    simp [UInt64.lt_iff_toNat_lt]
  case false.true =>
    rw [rank_of_positive hnx, rank_of_negative hny]
    have := isNegative_iff.1 hny
    simp only [Bool.false_eq_true, iff_false]
    omega
  case true.false =>
    rw [rank_of_negative hnx, rank_of_positive hny]
    have := isNegative_iff.1 hnx
    simp only [iff_true]
    omega
  case true.true =>
    rw [rank_of_negative hnx, rank_of_negative hny]
    simp only [UInt64.lt_iff_toNat_lt, decide_eq_true_eq]
    omega

end Binary64

namespace Term

/-- Equality as it is tested: kind by kind, literals part by part, doubles by their bits. -/
def same : Term → Term → Bool
  | iri a, iri b => a == b
  | blank a, blank b => a == b
  | literal a, literal b =>
    a.lexical == b.lexical && a.datatype == b.datatype && a.language == b.language
  | integer a, integer b => a == b
  | double a, double b => a.bits == b.bits
  | boolean a, boolean b => a == b
  | _, _ => false

theorem same_iff (a b : Term) : a.same b = true ↔ a = b := by
  cases a <;> cases b
  case literal.literal a b =>
    obtain ⟨lexical, datatype, language⟩ := a
    obtain ⟨lexical', datatype', language'⟩ := b
    simp [same, and_assoc]
  case double.double a b =>
    obtain ⟨x⟩ := a
    obtain ⟨y⟩ := b
    simp [same]
  all_goals simp [same]

end Term

namespace Key

theorem beq_iff_slots {a b : Key} : (a == b) = true ↔ a.slots = b.slots :=
  beq_iff_eq.trans ⟨congrArg slots, ext⟩

/-- Equal slots have equal digests, so it does no harm to look at these first. -/
theorem beq_iff_hash_slots {a b : Key} :
    (a == b) = true ↔ a.hash = b.hash ∧ a.slots = b.slots := by
  refine ⟨fun h => ?_, fun h => beq_iff_slots.2 h.2⟩
  obtain rfl := beq_iff_eq.1 h
  exact ⟨rfl, rfl⟩

end Key

namespace Buckets

theorem get?_ofKeys (kind : Kind) (keys : List Key) (k : Key) :
    (ofKeys kind keys).get? k = if k ∈ keys then some [] else none := by
  induction keys using List.reverseRecOn with
  | nil => exact get?_empty kind k
  | append_singleton keys k' ih =>
    rw [ofKeys, List.foldl_concat, ← ofKeys, get?_ensure]
    by_cases e : k = k'
    · subst e
      rw [ih]
      by_cases hk : k ∈ keys <;> simp [hk]
    · simp [e, ih]

theorem isSome_get?_ofKeys {kind : Kind} {keys : List Key} {k : Key} :
    ((ofKeys kind keys).get? k).isSome = true ↔ ∃ k' ∈ keys, compare k' k = .eq := by
  have hmem : (∃ k' ∈ keys, compare k' k = .eq) ↔ k ∈ keys := by simp
  rw [hmem, get?_ofKeys]
  by_cases hk : k ∈ keys <;> simp [hk]

end Buckets

/-- The comparisons of terms and of keys are total orders and agree with equality. Terms are
equal that are of one kind and have one form, and doubles that have one bit pattern; doubles
follow each other by sign and magnitude. Keys are equal when their digests and their slots are,
and the slots alone decide that. Maps of all kinds therefore take the same keys for one: those
that compare as equal. -/
theorem orders_agree :
    OrdersBy (compare : Term → Term → Ordering) Term.same ∧
    OrdersBy (compare : Key → Key → Ordering) (· == ·) ∧
    (∀ a b : Term, a.same b = true ↔ a = b) ∧
    (∀ x y : Binary64, compare (Term.double x) (.double y) = .lt ↔ x.precedes y = true) ∧
    (∀ a b : Key, ((a == b) = true ↔ a.hash = b.hash ∧ a.slots = b.slots) ∧
      ((a == b) = true ↔ a.slots = b.slots)) ∧
    ∀ keys : List Key,
      (∀ kind k, ((Buckets.ofKeys kind keys).get? k).isSome = true ↔
        ∃ k' ∈ keys, compare k' k = .eq) ∧
      ∀ kind kind', (Buckets.ofKeys kind keys).size = (Buckets.ofKeys kind' keys).size := by
  have hterms : OrdersBy (compare : Term → Term → Ordering) Term.same :=
    .of_lawful Term.same_iff
  have hkeys : OrdersBy (compare : Key → Key → Ordering) (· == ·) :=
    .of_lawful fun _ _ => Key.beq_iff_eq
  refine ⟨hterms, hkeys, Term.same_iff, Binary64.compare_eq_lt_iff,
    fun a b => ⟨Key.beq_iff_hash_slots, Key.beq_iff_slots⟩, fun keys => ⟨fun kind k =>
      Buckets.isSome_get?_ofKeys, fun kind kind' => Buckets.size_congr fun k => ?_⟩⟩
  rw [Buckets.get?_ofKeys, Buckets.get?_ofKeys]

/-- Both infinities, both zeros and two patterns of not-a-number, in their order. -/
example : ([0xfff8000000000000, 0xfff0000000000000, 0x8000000000000000, 0, 0x7ff0000000000000,
    0x7ff8000000000000].map Binary64.mk).Pairwise (fun x y => compare x y = .lt) := by
  decide

end HashJoin
