import HashJoin.Binary64

/-! Doubles in scientific notation: the fewest digits that read back as the same number,
one of them before the point, and an exponent with neither a plus sign nor padding. The
infinities and not-a-number have words instead. -/

namespace HashJoin.Binary64

open Decimal

def sign (x : Binary64) : String := if x.isNegative then "-" else ""

/-- One digit, the others after a point, and the exponent. -/
def withExponent (s : Scientific) : String :=
  let digits := (toString s.digits).toList
  let point := s.exponent + digits.length - 1
  match digits with
  | [] => ""
  | [d] => String.ofList [d] ++ "e" ++ toString point
  | d :: rest => String.ofList (d :: '.' :: rest) ++ "e" ++ toString point

/-- Scientific form; of two equally near decimals it takes the one away from zero. -/
def scientific (x : Binary64) : String :=
  if x.isNaN then "NaN"
  else if x.isInfinite then x.sign ++ "inf"
  else if x.isZero then x.sign ++ "0e0"
  else x.sign ++ withExponent (shortest .awayFromZero x.magnitude)

end HashJoin.Binary64
