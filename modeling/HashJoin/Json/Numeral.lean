import HashJoin.Binary64

/-! JSON numbers as they are written: a sign, whole digits, and perhaps a fraction and an
exponent. An integer is written with neither. Reading a double gathers the leading
digits into a 64-bit word as long as they fit and then scales the word by a power of
ten, rounding once for the word and once for the scaling. Writing a double shows the
fewest digits that single it out, of two equally near decimals the even one. -/

namespace HashJoin.Json

structure Numeral where
  negative : Bool := false
  whole : List Nat
  fraction : Option (List Nat) := none
  exponent : Option Int := none
  deriving DecidableEq

namespace Numeral

/-! ### Reading -/

def digitValue? (c : Char) : Option Nat :=
  if '0' ≤ c ∧ c ≤ '9' then some (c.toNat - 48) else none

/-- The digits at the front, and what follows them. -/
def readDigits : List Char → List Nat × List Char
  | [] => ([], [])
  | c :: rest => match digitValue? c with
    | none => ([], c :: rest)
    | some d => let (ds, after) := readDigits rest; (d :: ds, after)

theorem length_readDigits (cs : List Char) : (readDigits cs).2.length ≤ cs.length := by
  fun_induction readDigits cs <;> simp_all; omega

def value (digits : List Nat) : Nat := digits.foldl (fun n d => n * 10 + d) 0

/-- One digit at least, and no zero in front of another digit. -/
def readWhole (cs : List Char) : Option (List Nat × List Char) :=
  match readDigits cs with
  | ([], _) => none
  | (0 :: _ :: _, _) => none
  | (ds, after) => some (ds, after)

theorem length_readWhole {cs after : List Char} {ds : List Nat}
    (h : readWhole cs = some (ds, after)) : after.length < cs.length := by
  cases cs with
  | nil => simp [readWhole, readDigits] at h
  | cons c rest =>
    have := length_readDigits rest
    unfold readWhole readDigits at h
    grind

def readFraction : List Char → Option (Option (List Nat) × List Char)
  | '.' :: rest => match readDigits rest with
    | ([], _) => none
    | (ds, after) => some (some ds, after)
  | cs => some (none, cs)

theorem length_readFraction {cs after : List Char} {ds : Option (List Nat)}
    (h : readFraction cs = some (ds, after)) : after.length ≤ cs.length := by
  unfold readFraction at h
  split at h
  next rest => have := length_readDigits rest; grind
  next => grind

def readPower (negative : Bool) (cs : List Char) : Option (Option Int × List Char) :=
  match readDigits cs with
  | ([], _) => none
  | (ds, after) => some (some (if negative then -(value ds : Int) else value ds), after)

theorem length_readPower {negative : Bool} {cs after : List Char} {e : Option Int}
    (h : readPower negative cs = some (e, after)) : after.length ≤ cs.length := by
  have := length_readDigits cs
  unfold readPower at h
  grind

def readExponentSign : List Char → Option (Option Int × List Char)
  | '-' :: rest => readPower true rest
  | '+' :: rest => readPower false rest
  | cs => readPower false cs

def readExponent : List Char → Option (Option Int × List Char)
  | 'e' :: rest => readExponentSign rest
  | 'E' :: rest => readExponentSign rest
  | cs => some (none, cs)

theorem length_readExponent {cs after : List Char} {e : Option Int}
    (h : readExponent cs = some (e, after)) : after.length ≤ cs.length := by
  have sign {cs : List Char} (h : readExponentSign cs = some (e, after)) :
      after.length ≤ cs.length := by
    unfold readExponentSign at h
    split at h <;> have := length_readPower h <;> grind
  unfold readExponent at h
  split at h
  next => have := sign h; grind
  next => have := sign h; grind
  next => grind

def readUnsigned (negative : Bool) (cs : List Char) : Option (Numeral × List Char) := do
  let (whole, cs) ← readWhole cs
  let (fraction, cs) ← readFraction cs
  let (exponent, cs) ← readExponent cs
  return (⟨negative, whole, fraction, exponent⟩, cs)

/-- The numeral at the front, and what follows it. -/
def read : List Char → Option (Numeral × List Char)
  | '-' :: rest => readUnsigned true rest
  | cs => readUnsigned false cs

theorem length_readUnsigned {negative : Bool} {cs after : List Char} {n : Numeral}
    (h : readUnsigned negative cs = some (n, after)) : after.length < cs.length := by
  obtain ⟨_, hw, h⟩ := Option.bind_eq_some_iff.1 h
  obtain ⟨_, hf, h⟩ := Option.bind_eq_some_iff.1 h
  obtain ⟨_, he, h⟩ := Option.bind_eq_some_iff.1 h
  cases h
  have := length_readWhole hw
  have := length_readFraction hf
  have := length_readExponent he
  omega

theorem length_read {cs after : List Char} {n : Numeral} (h : read cs = some (n, after)) :
    after.length < cs.length := by
  unfold read at h
  split at h <;> have := length_readUnsigned h <;> grind

/-! ### Integers -/

def digitsOf (n : Nat) : List Nat := (Nat.toDigits 10 n).map fun c => c.toNat - 48

def ofInt (n : Int) : Numeral := { negative := n < 0, whole := digitsOf n.natAbs }

/-- The least magnitude that no positive 64-bit integer has. -/
def int64Bound : Nat := 0x8000000000000000

/-- A 64-bit integer; zero has no sign. -/
def toInt64? (n : Numeral) : Option Int64 :=
  let magnitude := value n.whole
  if n.fraction.isSome ∨ n.exponent.isSome then none
  else if n.negative then
    if magnitude = 0 ∨ int64Bound < magnitude then none else some (Int64.ofInt (-magnitude))
  else if int64Bound ≤ magnitude then none else some (Int64.ofInt magnitude)

/-! ### Doubles -/

/-- Append digits to a number as long as it fits 64 bits; also the number of
digits left over. -/
def gather (start : Nat) : List Nat → Nat × Nat
  | [] => (start, 0)
  | d :: ds =>
    if start * 10 + d ≤ 0xffffffffffffffff then gather (start * 10 + d) ds
    else (start, ds.length + 1)

def power10 (n : Nat) : Float := Float.ofScientific 1 false n

/-- A word scaled by a power of ten, unless the result is too large. A scale below the
smallest power of a double is applied in two steps, of which the second leaves nothing
when there would have to be a third. -/
def scale? (word : Nat) (exponent : Int) : Option Float :=
  let f := word.toUInt64.toFloat
  if word = 0 then some f
  else if 308 < exponent then none
  else if 0 ≤ exponent then
    let g := f * power10 exponent.toNat
    if g.isInf then none else some g
  else if -308 ≤ exponent then some (f / power10 (-exponent).toNat)
  else if -616 ≤ exponent then some (f / power10 308 / power10 (-exponent - 308).toNat)
  else some (f / power10 308 / power10 308)

def toBinary64? (n : Numeral) : Option Binary64 := do
  let fraction := n.fraction.getD []
  let (word, wholeLeft) := gather 0 n.whole
  let (word, fractionLeft) := gather word fraction
  let f ← scale? word (n.exponent.getD 0 + wholeLeft - (fraction.length - fractionLeft : Nat))
  return ⟨(if n.negative then -f else f).toBits⟩

/-- Positional notation is used where the point falls from four places before the first
digit to sixteen after it, and shows at least one digit on either side of the point. -/
def ofScientific (negative : Bool) (s : Decimal.Scientific) : Numeral :=
  let digits := digitsOf s.digits
  let point := s.exponent + digits.length
  if 0 ≤ s.exponent ∧ point ≤ 16 then
    { negative, whole := digits ++ List.replicate s.exponent.toNat 0, fraction := some [0] }
  else if 0 < point ∧ point ≤ 16 then
    { negative, whole := digits.take point.toNat, fraction := some (digits.drop point.toNat) }
  else if -5 < point ∧ point ≤ 0 then
    { negative, whole := [0], fraction := some (List.replicate (-point).toNat 0 ++ digits) }
  else
    { negative, whole := digits.take 1, exponent := some (point - 1)
      fraction := if digits.length = 1 then none else some (digits.drop 1) }

/-- Infinities and not-a-number have no numeral. -/
def ofBinary64? (x : Binary64) : Option Numeral :=
  if !x.isFinite then none
  else if x.isZero then some { negative := x.isNegative, whole := [0], fraction := some [0] }
  else some (ofScientific x.isNegative (Decimal.shortest .toEven x.magnitude))

/-! ### Writing -/

def digitsText (digits : List Nat) : List Char := digits.map Nat.digitChar

/-- An exponent shows its sign even when it is not negative. -/
def exponentText (e : Int) : List Char :=
  'e' :: (if e < 0 then '-' else '+') :: Nat.toDigits 10 e.natAbs

def text (n : Numeral) : List Char :=
  (if n.negative then ['-'] else []) ++ digitsText n.whole
    ++ (match n.fraction with
      | some digits => '.' :: digitsText digits
      | none => [])
    ++ (match n.exponent with
      | some e => exponentText e
      | none => [])

end Numeral

end HashJoin.Json
