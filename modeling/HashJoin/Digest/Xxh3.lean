import HashJoin.Digest.Word

/-! The 64-bit digest XXH3 with seed zero and the standard secret. Short inputs are
mixed in one step by a rule for their length; inputs of up to 240 bytes are mixed
sixteen bytes at a time; longer ones run through eight lanes in stripes of 64 bytes,
with the lanes scrambled after each block of sixteen stripes. -/

namespace HashJoin.Digest.Xxh3

/-- The standard secret. -/
def secret : ByteArray := ⟨#[
  0xb8, 0xfe, 0x6c, 0x39, 0x23, 0xa4, 0x4b, 0xbe, 0x7c, 0x01, 0x81, 0x2c, 0xf7, 0x21, 0xad, 0x1c,
  0xde, 0xd4, 0x6d, 0xe9, 0x83, 0x90, 0x97, 0xdb, 0x72, 0x40, 0xa4, 0xa4, 0xb7, 0xb3, 0x67, 0x1f,
  0xcb, 0x79, 0xe6, 0x4e, 0xcc, 0xc0, 0xe5, 0x78, 0x82, 0x5a, 0xd0, 0x7d, 0xcc, 0xff, 0x72, 0x21,
  0xb8, 0x08, 0x46, 0x74, 0xf7, 0x43, 0x24, 0x8e, 0xe0, 0x35, 0x90, 0xe6, 0x81, 0x3a, 0x26, 0x4c,
  0x3c, 0x28, 0x52, 0xbb, 0x91, 0xc3, 0x00, 0xcb, 0x88, 0xd0, 0x65, 0x8b, 0x1b, 0x53, 0x2e, 0xa3,
  0x71, 0x64, 0x48, 0x97, 0xa2, 0x0d, 0xf9, 0x4e, 0x38, 0x19, 0xef, 0x46, 0xa9, 0xde, 0xac, 0xd8,
  0xa8, 0xfa, 0x76, 0x3f, 0xe3, 0x9c, 0x34, 0x3f, 0xf9, 0xdc, 0xbb, 0xc7, 0xc7, 0x0b, 0x4f, 0x1d,
  0x8a, 0x51, 0xe0, 0x4b, 0xcd, 0xb4, 0x59, 0x31, 0xc8, 0x9f, 0x7e, 0xc9, 0xd9, 0x78, 0x73, 0x64,
  0xea, 0xc5, 0xac, 0x83, 0x34, 0xd3, 0xeb, 0xc3, 0xc5, 0x81, 0xa0, 0xff, 0xfa, 0x13, 0x63, 0xeb,
  0x17, 0x0d, 0xdd, 0x51, 0xb7, 0xf0, 0xda, 0x49, 0xd3, 0x16, 0x55, 0x26, 0x29, 0xd4, 0x68, 0x9e,
  0x2b, 0x16, 0xbe, 0x58, 0x7d, 0x47, 0xa1, 0xfc, 0x8f, 0xf8, 0xb8, 0xd1, 0x7a, 0xd0, 0x31, 0xce,
  0x45, 0xcb, 0x3a, 0x8f, 0x95, 0x16, 0x04, 0x28, 0xaf, 0xd7, 0xfb, 0xca, 0xbb, 0x4b, 0x40, 0x7e]⟩

/-! Multipliers: odd primes of 32 and 64 bits, and two constants of the finishing steps. -/

def p32a : UInt64 := 0x9e3779b1
def p32b : UInt64 := 0x85ebca77
def p32c : UInt64 := 0xc2b2ae3d
def p64a : UInt64 := 0x9e3779b185ebca87
def p64b : UInt64 := 0xc2b2ae3d27d4eb4f
def p64c : UInt64 := 0x165667b19e3779f9
def p64d : UInt64 := 0x85ebca77c2b2ae63
def p64e : UInt64 := 0x27d4eb2f165667c5
def mixA : UInt64 := 0x165667919e3779f9
def mixB : UInt64 := 0x9fb21c651e98df25

def secretWord (pos : Nat) : UInt64 := word64 secret pos

/-! Finishing steps -/

def avalanche (h : UInt64) : UInt64 :=
  let h := (h ^^^ (h >>> 37)) * mixA
  h ^^^ (h >>> 32)

/-- The finish of inputs of at most three bytes. -/
def avalancheTiny (h : UInt64) : UInt64 :=
  let h := (h ^^^ (h >>> 33)) * p64b
  let h := (h ^^^ (h >>> 29)) * p64c
  h ^^^ (h >>> 32)

/-- The finish of inputs of four to eight bytes. -/
def avalancheSmall (h length : UInt64) : UInt64 :=
  let h := (h ^^^ rotateLeft h 49 ^^^ rotateLeft h 24) * mixB
  let h := (h ^^^ ((h >>> 35) + length)) * mixB
  h ^^^ (h >>> 28)

/-! Up to sixteen bytes -/

def empty : UInt64 := avalancheTiny (secretWord 56 ^^^ secretWord 64)

def upTo3 (input : ByteArray) : UInt64 :=
  let n := input.size
  let first := (byteAt input 0).toUInt64
  let middle := (byteAt input (n / 2)).toUInt64
  let last := (byteAt input (n - 1)).toUInt64
  let combined := (first <<< 16) ||| (middle <<< 24) ||| last ||| (n.toUInt64 <<< 8)
  avalancheTiny (combined ^^^ (word32 secret 0 ^^^ word32 secret 4))

def upTo8 (input : ByteArray) : UInt64 :=
  let n := input.size
  let matched := word32 input (n - 4) + (word32 input 0 <<< 32)
  avalancheSmall (matched ^^^ (secretWord 8 ^^^ secretWord 16)) n.toUInt64

def upTo16 (input : ByteArray) : UInt64 :=
  let n := input.size
  let low := word64 input 0 ^^^ (secretWord 24 ^^^ secretWord 32)
  let high := word64 input (n - 8) ^^^ (secretWord 40 ^^^ secretWord 48)
  avalanche (n.toUInt64 + swapBytes low + high + foldedProduct low high)

/-! Up to 240 bytes -/

/-- Sixteen bytes of input against sixteen of the secret. -/
def mix16 (input : ByteArray) (pos keyPos : Nat) : UInt64 :=
  foldedProduct (word64 input pos ^^^ secretWord keyPos)
    (word64 input (pos + 8) ^^^ secretWord (keyPos + 8))

/-- Pieces from both ends, working inwards. -/
def upTo128 (input : ByteArray) : UInt64 :=
  let n := input.size
  avalanche <| (List.range ((n - 1) / 32 + 1)).foldl
    (fun acc i => acc + mix16 input (16 * i) (32 * i) + mix16 input (n - 16 * (i + 1)) (32 * i + 16))
    (n.toUInt64 * p64a)

/-- Eight pieces, a finishing step, the other whole pieces, and the last sixteen bytes. -/
def upTo240 (input : ByteArray) : UInt64 :=
  let n := input.size
  let start := (List.range 8).foldl (fun acc i => acc + mix16 input (16 * i) (16 * i))
    (n.toUInt64 * p64a)
  let rest := (List.range (n / 16 - 8)).foldl
    (fun acc i => acc + mix16 input (16 * (i + 8)) (16 * i + 3)) (avalanche start)
  avalanche (rest + mix16 input (n - 16) 119)

/-! Longer inputs -/

/-- The lanes at the start. -/
def startLanes : List UInt64 := [p32c, p64a, p64b, p64c, p64d, p32b, p64e, p32a]

/-- Neighbours change places. -/
def swapPairs : List UInt64 → List UInt64
  | a :: b :: rest => b :: a :: swapPairs rest
  | rest => rest

/-- The product of the halves of a word. -/
def halvesProduct (w : UInt64) : UInt64 := w.toUInt32.toUInt64 * (w >>> 32)

/-- One stripe: each lane gains its neighbour's input and the product of the halves of
its own input under the secret. -/
def addStripe (input : ByteArray) (pos keyPos : Nat) (lanes : List UInt64) : List UInt64 :=
  let data := (List.range 8).map fun i => word64 input (pos + 8 * i)
  let keyed := data.zipWith (· ^^^ ·) ((List.range 8).map fun i => secretWord (keyPos + 8 * i))
  (lanes.zipWith (· + ·) (swapPairs data)).zipWith (· + ·) (keyed.map halvesProduct)

def scramble (lanes : List UInt64) : List UInt64 :=
  lanes.zipWith (fun (w k : UInt64) => (w ^^^ (w >>> 47) ^^^ k) * p32a)
    ((List.range 8).map fun i => secretWord (128 + 8 * i))

/-- The first `count` stripes of the block that begins at a place. -/
def addStripes (input : ByteArray) (pos count : Nat) (lanes : List UInt64) : List UInt64 :=
  (List.range count).foldl (fun acc i => addStripe input (pos + 64 * i) (8 * i) acc) lanes

/-- Sum of the folded products of the pairs of lanes under the secret. -/
def mergeLanes (keyPos : Nat) : List UInt64 → UInt64
  | a :: b :: rest =>
    foldedProduct (a ^^^ secretWord keyPos) (b ^^^ secretWord (keyPos + 8))
      + mergeLanes (keyPos + 16) rest
  | _ => 0

def long (input : ByteArray) : UInt64 :=
  let n := input.size
  let blocks := (n - 1) / 1024
  let lanes := (List.range blocks).foldl
    (fun acc i => scramble (addStripes input (1024 * i) 16 acc)) startLanes
  let lanes := addStripes input (1024 * blocks) ((n - 1 - 1024 * blocks) / 64) lanes
  let lanes := addStripe input (n - 64) 121 lanes
  avalanche (n.toUInt64 * p64a + mergeLanes 11 lanes)

/-- The digest of a byte string. -/
def digest (input : ByteArray) : UInt64 :=
  let n := input.size
  if n = 0 then empty
  else if n ≤ 3 then upTo3 input
  else if n ≤ 8 then upTo8 input
  else if n ≤ 16 then upTo16 input
  else if n ≤ 128 then upTo128 input
  else if n ≤ 240 then upTo240 input
  else long input

end HashJoin.Digest.Xxh3
