/-! The fewest decimal digits that single out a binary floating-point number.
Everything between the halfway points to the two neighbouring floating-point
numbers rounds to the number itself; the halfway points do so exactly when its
mantissa is even. Among the decimals with one digit, then two, and so on, the
first grid with a point in that range gives the answer. On one grid only the two
points around the number can be the nearest, so only those are tried. All
comparisons are between natural numbers, so nothing is lost to rounding. -/

namespace HashJoin.Decimal

/-- The decimal number `digits · 10 ^ exponent`. -/
structure Scientific where
  digits : Nat
  exponent : Int
  deriving DecidableEq

/-- Which of two equally near decimals is taken. -/
inductive Tie where
  | awayFromZero
  | toEven
  deriving DecidableEq

/-- A positive floating-point number `mantissa · 2 ^ exponent`. Its neighbours are
`2 ^ exponent` away, except that the one below is half as far when the number is the
first of its binade. -/
structure Magnitude where
  mantissa : Nat
  exponent : Int
  firstOfBinade : Bool
  deriving DecidableEq

namespace Magnitude

/-- The number as a fraction. -/
def ratio (x : Magnitude) : Nat × Nat :=
  (x.mantissa * Nat.pow 2 x.exponent.toNat, Nat.pow 2 (-x.exponent).toNat)

/-- The number divided by `10 ^ p`, as a fraction. -/
def scaled (x : Magnitude) (p : Int) : Nat × Nat :=
  (x.ratio.1 * Nat.pow 10 (-p).toNat, x.ratio.2 * Nat.pow 10 p.toNat)

/-- The least `k` with the number below `10 ^ k`. -/
def decade (x : Magnitude) : Int :=
  let k : Int := (toString x.ratio.1).length - (toString x.ratio.2).length
  let s := x.scaled k
  if s.2 ≤ s.1 then k + 1 else k

/-- Whether the decimal `c · 10 ^ p` rounds to the number. -/
def isHit (x : Magnitude) (p : Int) (c : Nat) : Bool :=
  let s := x.scaled p
  let here := 4 * x.mantissa * c * s.2
  let low := (4 * x.mantissa - (if x.firstOfBinade then 1 else 2)) * s.1
  let high := (4 * x.mantissa + 2) * s.1
  if x.mantissa % 2 = 0 then low ≤ here && here ≤ high else low < here && here < high

/-- The nearer to the number of `c · 10 ^ p`, which is not above it, and `(c + 1) · 10 ^ p`. -/
def nearer (x : Magnitude) (tie : Tie) (p : Int) (c : Nat) : Nat :=
  let s := x.scaled p
  match compare (s.1 - c * s.2) ((c + 1) * s.2 - s.1) with
  | .lt => c
  | .gt => c + 1
  | .eq => match tie with
    | .awayFromZero => c + 1
    | .toEven => if c % 2 = 0 then c else c + 1

/-- The nearest multiple of `10 ^ p` that rounds to the number, if one does. -/
def onGrid? (x : Magnitude) (tie : Tie) (p : Int) : Option Scientific :=
  let s := x.scaled p
  let c := s.1 / s.2
  match x.isHit p c, x.isHit p (c + 1) with
  | true, true => some ⟨x.nearer tie p c, p⟩
  | true, false => some ⟨c, p⟩
  | false, true => some ⟨c + 1, p⟩
  | false, false => none

/-- All digits of the number. -/
def exactly (x : Magnitude) : Scientific :=
  ⟨x.mantissa * Nat.pow 2 x.exponent.toNat * Nat.pow 5 (-x.exponent).toNat, min x.exponent 0⟩

end Magnitude

/-- The same number without zeros at the end of its digits. -/
def Scientific.trim (s : Scientific) : Scientific :=
  if s.digits ≠ 0 ∧ s.digits % 10 = 0 then
    Scientific.trim ⟨s.digits / 10, s.exponent + 1⟩
  else s
  termination_by s.digits
  decreasing_by omega

/-- The most digits that a double can need. -/
def maxDigits : Nat := 17

/-- The fewest digits that round to the number, and the nearest such decimal. -/
def shortest (tie : Tie) (x : Magnitude) : Scientific :=
  let grids := (List.range maxDigits).map fun d => x.decade - (d + 1 : Nat)
  ((grids.findSome? (x.onGrid? tie)).getD x.exactly).trim

end HashJoin.Decimal
