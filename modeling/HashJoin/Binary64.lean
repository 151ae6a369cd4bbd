import HashJoin.Decimal.Shortest

/-! Double-precision numbers as bit patterns. Two of them are equal when their bits
are, so every payload of not-a-number and both zeros are values of their own. The
order is total: negative numbers first, by falling magnitude, then positive ones by
rising magnitude, with the patterns of not-a-number outside the infinities. -/

namespace HashJoin

structure Binary64 where
  bits : UInt64
  deriving DecidableEq

namespace Binary64

/-- The weight of the sign bit. -/
def signWeight : Nat := 0x8000000000000000

/-- The weight of the lowest bit of the exponent. -/
def exponentWeight : Nat := 0x10000000000000

def isNegative (x : Binary64) : Bool := signWeight ≤ x.bits.toNat

def exponentField (x : Binary64) : Nat := x.bits.toNat / exponentWeight % 2048

def fractionField (x : Binary64) : Nat := x.bits.toNat % exponentWeight

def isNaN (x : Binary64) : Bool := x.exponentField = 2047 && x.fractionField ≠ 0

def isInfinite (x : Binary64) : Bool := x.exponentField = 2047 && x.fractionField = 0

def isFinite (x : Binary64) : Bool := x.exponentField ≠ 2047

/-- Whether the number is one of the two zeros. -/
def isZero (x : Binary64) : Bool := x.exponentField = 0 && x.fractionField = 0

/-- The magnitude of a number that is finite and not zero. -/
def magnitude (x : Binary64) : Decimal.Magnitude :=
  if x.exponentField = 0 then ⟨x.fractionField, -1074, false⟩
  else ⟨x.fractionField + exponentWeight, x.exponentField - 1075,
    x.fractionField = 0 && x.exponentField ≠ 1⟩

/-- The position of a bit pattern in the total order: the sign bit is turned over in
positive numbers, and all bits are in negative ones. -/
def rank (x : Binary64) : Nat :=
  if x.bits.toNat < signWeight then x.bits.toNat + signWeight else 2 * signWeight - 1 - x.bits.toNat

theorem rank_inj {x y : Binary64} (h : x.rank = y.rank) : x = y := by
  have hx := x.bits.toNat_lt
  have hy := y.bits.toNat_lt
  have : x.bits.toNat = y.bits.toNat := by
    have : signWeight = 0x8000000000000000 := rfl
    unfold rank at h
    split at h <;> split at h <;> omega
  cases x; cases y
  exact congrArg Binary64.mk (UInt64.toNat_inj.1 this)

instance : Ord Binary64 := ⟨fun x y => compare x.rank y.rank⟩

instance : Std.TransOrd Binary64 where
  eq_swap {x y} := Std.OrientedOrd.eq_swap (a := x.rank) (b := y.rank)
  isLE_trans {_ _ _} h h' := Std.TransOrd.isLE_trans (α := Nat) h h'

instance : Std.LawfulEqOrd Binary64 where
  compare_self {x} := (Std.LawfulEqOrd.compare_eq_iff_eq.2 rfl : compare x.rank x.rank = .eq)
  eq_of_compare {_ _} h := rank_inj (Std.LawfulEqOrd.eq_of_compare (α := Nat) h)

end Binary64

end HashJoin
