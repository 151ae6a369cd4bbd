/-! Words of 32 and 64 bits, as little-endian bytes and as text. -/

namespace HashJoin.Digest

/-- The byte at a place; past the end there are zeros. -/
def byteAt (bytes : ByteArray) (pos : Nat) : UInt8 := (bytes.data[pos]?).getD 0

/-- The number in the `n` bytes from a place on, the lowest first. -/
def numberAt (bytes : ByteArray) (pos : Nat) : Nat → UInt64
  | 0 => 0
  | n + 1 => (byteAt bytes pos).toUInt64 ||| (numberAt bytes (pos + 1) n <<< 8)

def word32 (bytes : ByteArray) (pos : Nat) : UInt64 := numberAt bytes pos 4

def word64 (bytes : ByteArray) (pos : Nat) : UInt64 := numberAt bytes pos 8

/-- The lowest `n` bytes of a number, the lowest first. -/
def lowBytes : Nat → Nat → List UInt8
  | 0, _ => []
  | n + 1, value => UInt8.ofNat value :: lowBytes n (value / 256)

/-- The eight bytes of a number below `2 ^ 64`. -/
def wordBytes (value : Nat) : List UInt8 := lowBytes 8 value

/-- A word with its bytes in reverse. -/
def swapBytes (w : UInt64) : UInt64 :=
  numberAt ⟨(lowBytes 8 w.toNat).reverse.toArray⟩ 0 8

def rotateLeft (w : UInt64) (n : UInt64) : UInt64 := (w <<< n) ||| (w >>> (64 - n))

/-- The two halves of the full product of two words, combined by exclusive or. -/
def foldedProduct (a b : UInt64) : UInt64 :=
  let product := a.toNat * b.toNat
  product.toUInt64 ^^^ (product >>> 64).toUInt64

/-- A word in sixteen hexadecimal digits. -/
def hexText (w : UInt64) : String :=
  let digits := Nat.toDigits 16 w.toNat
  String.ofList (List.replicate (16 - digits.length) '0' ++ digits)

end HashJoin.Digest
