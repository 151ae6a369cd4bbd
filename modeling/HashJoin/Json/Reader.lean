import HashJoin.Config.Error
import HashJoin.Json.Token

/-! Readers take a value from the front of a list of tokens. A text can fail to be the
JSON of a value, or it can be one whose configuration is invalid. The second fault is
found where the invalid list ends, so it wins over anything wrong after that place. -/

namespace HashJoin.Json

inductive Fault where
  | malformed
  | invalid (error : ConfigError)
  deriving DecidableEq

/-- The value read and the tokens that follow it. -/
abbrev Result (α : Type) := Except Fault (α × List Token)

abbrev Reader (α : Type) := List Token → Result α

namespace Reader

variable {α β σ : Type}

def fail : Result α := .error .malformed

/-- Read on after a value. -/
def andThen (r : Result α) (next : α → Reader β) : Result β :=
  match r with
  | .ok (a, ts) => next a ts
  | .error fault => .error fault

/-- The value of a reader, if the tokens after it begin with a given one. -/
def endingWith (close : Token) (r : Result α) : Result α :=
  match r with
  | .ok (a, t :: ts) => if t = close then .ok (a, ts) else fail
  | .ok (_, []) => fail
  | .error fault => .error fault

def string : Reader String
  | .string (some s) :: ts => .ok (s, ts)
  | _ => fail

/-- A text or `null`. -/
def optionalString : Reader (Option String)
  | .null :: ts => .ok (none, ts)
  | ts => andThen (string ts) fun s ts => .ok (some s, ts)

/-- The rest of a list after an item: its end, or a comma and a further item. As each item
takes a comma, their number is bounded by that of the tokens. -/
def moreItems (item : Reader α) : Nat → Reader (List α)
  | _, .closeList :: ts => .ok ([], ts)
  | n + 1, .comma :: ts =>
    andThen (item ts) fun a ts => andThen (moreItems item n ts) fun as ts => .ok (a :: as, ts)
  | _, _ => fail

def list (item : Reader α) : Reader (List α)
  | .openList :: .closeList :: ts => .ok ([], ts)
  | .openList :: ts =>
    andThen (item ts) fun a ts =>
      andThen (moreItems item ts.length ts) fun as ts => .ok (a :: as, ts)
  | _ => fail

/-- One member of an object. Its name and what was read before it say how its value is to
be read. -/
def member (read : Option String → σ → Reader σ) (s : σ) : Reader σ
  | .string name :: .colon :: ts => read name s ts
  | _ => fail

/-- The rest of an object after a member. -/
def moreMembers (read : Option String → σ → Reader σ) : Nat → σ → Reader σ
  | _, s, .closeObject :: ts => .ok (s, ts)
  | n + 1, s, .comma :: ts => andThen (member read s ts) (moreMembers read n)
  | _, _, _ => fail

def object (read : Option String → σ → Reader σ) (s : σ) : Reader σ
  | .openObject :: .closeObject :: ts => .ok (s, ts)
  | .openObject :: ts => andThen (member read s ts) fun s ts => moreMembers read ts.length s ts
  | _ => fail

/-- Pass over any value that is nested at most so deep. -/
def skipTo : Nat → Reader Unit
  | n + 1, .openList :: ts => andThen (list (skipTo n) (.openList :: ts)) fun _ ts => .ok ((), ts)
  | n + 1, .openObject :: ts => object (fun _ _ => skipTo n) () (.openObject :: ts)
  | _, .null :: ts => .ok ((), ts)
  | _, .boolean _ :: ts => .ok ((), ts)
  | _, .number _ :: ts => .ok ((), ts)
  | _, .string _ :: ts => .ok ((), ts)
  | _, _ => fail

/-- Pass over any value. -/
def skip : Reader Unit := fun ts => skipTo ts.length ts

/-- A label from a table, as a text or as the only member, with value `null`, of an object. -/
def label (ofLabel? : String → Option α) : Reader α
  | .string (some s) :: ts => match ofLabel? s with
    | some a => .ok (a, ts)
    | none => fail
  | .openObject :: .string (some s) :: .colon :: .null :: .closeObject :: ts => match ofLabel? s with
    | some a => .ok (a, ts)
    | none => fail
  | _ => fail

/-- The value that a text is the JSON of. -/
def decode (read : Reader α) (text : String) : Except Fault α :=
  match read (Token.scan text.toList) with
  | .ok (a, []) => .ok a
  | .ok (_, _ :: _) => .error .malformed
  | .error fault => .error fault

end Reader

end HashJoin.Json
