/-! JSON strings. A quote, a backslash and the characters below the blank are escaped,
everything else stands for itself. An escape by number gives a 16-bit unit; two units
that are halves of one character belong together, and a half that stands alone makes
the string no text. -/

namespace HashJoin.Json

/-- A character of a string, or half of one. -/
inductive Piece where
  | char (c : Char)
  | half (unit : Nat)
  deriving DecidableEq

namespace Piece

def ofUnit (unit : Nat) : Piece :=
  if 0xd800 ≤ unit ∧ unit < 0xe000 then half unit else char (Char.ofNat unit)

/-- The character of a leading and a trailing half. -/
def join? (leading trailing : Nat) : Option Char :=
  if leading < 0xdc00 ∧ 0xdc00 ≤ trailing then
    some (Char.ofNat (0x10000 + (leading - 0xd800) * 0x400 + (trailing - 0xdc00)))
  else none

/-- The text that the pieces make, unless a half stands alone. -/
def text? : List Piece → Option (List Char)
  | [] => some []
  | char c :: rest => (text? rest).map (c :: ·)
  | half a :: half b :: rest => do
    let c ← join? a b
    let cs ← text? rest
    return c :: cs
  | half _ :: _ => none

end Piece

def hexValue? (c : Char) : Option Nat :=
  if '0' ≤ c ∧ c ≤ '9' then some (c.toNat - 48)
  else if 'a' ≤ c ∧ c ≤ 'f' then some (c.toNat - 87)
  else if 'A' ≤ c ∧ c ≤ 'F' then some (c.toNat - 55)
  else none

def hexUnit? (a b c d : Char) : Option Nat := do
  return (((← hexValue? a) * 16 + (← hexValue? b)) * 16 + (← hexValue? c)) * 16 + (← hexValue? d)

/-- What a backslash and one letter stand for. -/
def unescape? : Char → Option Char
  | '"' => some '"'
  | '\\' => some '\\'
  | '/' => some '/'
  | 'b' => some '\x08'
  | 'f' => some '\x0c'
  | 'n' => some '\n'
  | 'r' => some '\r'
  | 't' => some '\t'
  | _ => none

/-- What was read after a piece, with the piece before it. -/
def Piece.prepend (p : Piece) (read : List Piece × List Char) : List Piece × List Char :=
  (p :: read.1, read.2)

/-- Read a string after its opening quote, up to and including the closing one. -/
def readPieces : List Char → Option (List Piece × List Char)
  | [] => none
  | '"' :: rest => some ([], rest)
  | '\\' :: 'u' :: a :: b :: c :: d :: rest => match hexUnit? a b c d with
    | some unit => (readPieces rest).map (Piece.ofUnit unit).prepend
    | none => none
  | '\\' :: letter :: rest => match unescape? letter with
    | some c => (readPieces rest).map (Piece.char c).prepend
    | none => none
  | c :: rest =>
    if c < ' ' ∨ c = '\\' then none else (readPieces rest).map (Piece.char c).prepend

theorem length_readPieces {cs after : List Char} {pieces : List Piece}
    (h : readPieces cs = some (pieces, after)) : after.length < cs.length := by
  fun_induction readPieces cs generalizing pieces after with
  | case1 => contradiction
  | case2 => grind
  | case3 | case5 | case8 =>
    obtain ⟨_, hq, he⟩ := Option.map_eq_some_iff.1 h
    cases he
    grind
  | case4 => contradiction
  | case6 => contradiction
  | case7 => contradiction

def hexDigit (n : Nat) : Char := Nat.digitChar n

/-- How a character is written in a string. -/
def escape (c : Char) : List Char :=
  if c = '"' then ['\\', '"']
  else if c = '\\' then ['\\', '\\']
  else if c = '\x08' then ['\\', 'b']
  else if c = '\x0c' then ['\\', 'f']
  else if c = '\n' then ['\\', 'n']
  else if c = '\r' then ['\\', 'r']
  else if c = '\t' then ['\\', 't']
  else if c < ' ' then ['\\', 'u', '0', '0', hexDigit (c.toNat / 16), hexDigit (c.toNat % 16)]
  else [c]

def quote (s : String) : List Char := '"' :: s.toList.flatMap escape ++ ['"']

end HashJoin.Json
