import HashJoin.Json.Numeral
import HashJoin.Json.Text

/-! The words and signs of a JSON text. Blanks between them are dropped. Where a text is
no JSON any more there is a token that says so, and nothing after it; what comes before
can still be read. -/

namespace HashJoin.Json

inductive Token where
  | openList
  | closeList
  | openObject
  | closeObject
  | comma
  | colon
  | null
  | boolean (value : Bool)
  | number (value : Numeral)
  /-- A string, without a value if half a character stands alone in it. -/
  | string (value : Option String)
  | invalid
  deriving DecidableEq

namespace Token

def isBlank (c : Char) : Bool := c = ' ' || c = '\n' || c = '\t' || c = '\r'

/-- What is left of a text after a given word. -/
def afterWord : List Char → List Char → Option (List Char)
  | [], cs => some cs
  | _ :: _, [] => none
  | w :: ws, c :: cs => if w = c then afterWord ws cs else none

theorem length_afterWord {word cs after : List Char} (h : afterWord word cs = some after) :
    after.length ≤ cs.length := by
  fun_induction afterWord word cs <;> grind

/-- The token that begins with a character, and what follows it. -/
def read (c : Char) (rest : List Char) : Option (Token × List Char) :=
  match c with
  | '[' => some (openList, rest)
  | ']' => some (closeList, rest)
  | '{' => some (openObject, rest)
  | '}' => some (closeObject, rest)
  | ',' => some (comma, rest)
  | ':' => some (colon, rest)
  | 'n' => (afterWord ['u', 'l', 'l'] rest).map (null, ·)
  | 't' => (afterWord ['r', 'u', 'e'] rest).map (boolean true, ·)
  | 'f' => (afterWord ['a', 'l', 's', 'e'] rest).map (boolean false, ·)
  | '"' => (readPieces rest).map fun p => (string ((Piece.text? p.1).map String.ofList), p.2)
  | c => (Numeral.read (c :: rest)).map fun p => (number p.1, p.2)

theorem length_read {c : Char} {rest after : List Char} {t : Token}
    (h : read c rest = some (t, after)) : after.length ≤ rest.length := by
  unfold read at h
  split at h
  case h_1 | h_2 | h_3 | h_4 | h_5 | h_6 => grind
  case h_7 | h_8 | h_9 =>
    obtain ⟨_, hw, he⟩ := Option.map_eq_some_iff.1 h
    cases he
    exact length_afterWord hw
  case h_10 =>
    obtain ⟨_, hp, he⟩ := Option.map_eq_some_iff.1 h
    cases he
    exact Nat.le_of_lt (length_readPieces hp)
  case h_11 =>
    obtain ⟨_, hn, he⟩ := Option.map_eq_some_iff.1 h
    cases he
    exact Nat.le_of_lt_succ (Numeral.length_read hn)

/-- The tokens of a text. -/
def scan : List Char → List Token
  | [] => []
  | c :: rest =>
    if isBlank c then scan rest
    else match _h : read c rest with
      | none => [invalid]
      | some (t, after) => t :: scan after
  termination_by cs => cs.length
  decreasing_by
    · simp
    · have := length_read _h; simp; omega

def text : Token → List Char
  | openList => ['[']
  | closeList => [']']
  | openObject => ['{']
  | closeObject => ['}']
  | comma => [',']
  | colon => [':']
  | null => "null".toList
  | boolean value => (toString value).toList
  | number value => value.text
  | string value => quote (value.getD "")
  | invalid => []

/-- Tokens written without blanks. -/
def render (ts : List Token) : String := String.ofList (ts.flatMap text)

end Token

end HashJoin.Json
