import HashJoin.Config
import HashJoin.Json.Reader
import HashJoin.Solution

/-! The JSON of variables, terms, solutions and configurations. A value is written in one
way only; some can be read in others too: the parts of a literal or a configuration
may stand in a list, fields may be in any order, and unknown fields are passed over. -/

namespace HashJoin.Json

open Reader (andThen endingWith fail)

/-! ### Variables and solutions -/

/-- A variable is its name, and no sigil is looked for. -/
def readVariable : Reader Variable := fun ts =>
  andThen (Reader.string ts) fun name ts => .ok (⟨name⟩, ts)

def variableTokens (v : Variable) : List Token := [.string (some v.name)]

/-- The tokens of a list, given those of each item. -/
def listTokens : List (List Token) → List Token
  | [] => [.openList, .closeList]
  | item :: items => .openList :: item ++ items.flatMap (.comma :: ·) ++ [.closeList]

/-! ### Terms -/

/-- What has been read of a literal; the inner absence is a part that is `null`. -/
structure LiteralFields where
  lexical : Option String := none
  datatype : Option (Option String) := none
  language : Option (Option String) := none
  deriving DecidableEq

namespace LiteralFields

/-- No field may come twice. -/
def read : Option String → LiteralFields → Reader LiteralFields
  | some "lexical", f, ts => if f.lexical.isSome then fail else
    andThen (Reader.string ts) fun s ts => .ok ({ f with lexical := some s }, ts)
  | some "datatype", f, ts => if f.datatype.isSome then fail else
    andThen (Reader.optionalString ts) fun s ts => .ok ({ f with datatype := some s }, ts)
  | some "language", f, ts => if f.language.isSome then fail else
    andThen (Reader.optionalString ts) fun s ts => .ok ({ f with language := some s }, ts)
  | some _, f, ts => andThen (Reader.skip ts) fun _ ts => .ok (f, ts)
  | none, _, _ => fail

end LiteralFields

def readLiteral : Reader Literal
  | .openList :: ts =>
    andThen (endingWith .comma (Reader.string ts)) fun lexical ts =>
      andThen (endingWith .comma (Reader.optionalString ts)) fun datatype ts =>
        andThen (endingWith .closeList (Reader.optionalString ts)) fun language ts =>
          .ok (⟨lexical, datatype, language⟩, ts)
  | ts => andThen (Reader.object LiteralFields.read {} ts) fun f ts => match f.lexical with
    | some lexical => .ok (⟨lexical, f.datatype.getD none, f.language.getD none⟩, ts)
    | none => fail

def readInteger : Reader Int64
  | .number n :: ts => match n.toInt64? with
    | some i => .ok (i, ts)
    | none => fail
  | _ => fail

def readDouble : Reader Binary64
  | .number n :: ts => match n.toBinary64? with
    | some x => .ok (x, ts)
    | none => fail
  | _ => fail

def readBoolean : Reader Bool
  | .boolean b :: ts => .ok (b, ts)
  | _ => fail

/-- The term of a given kind. -/
def readTermOf (kind : String) (ts : List Token) : Result Term :=
  match kind with
  | "iri" => andThen (Reader.string ts) fun s ts => .ok (.iri s, ts)
  | "blank_node" => andThen (Reader.string ts) fun s ts => .ok (.blank s, ts)
  | "literal" => andThen (readLiteral ts) fun l ts => .ok (.literal l, ts)
  | "integer" => andThen (readInteger ts) fun i ts => .ok (.integer i, ts)
  | "double" => andThen (readDouble ts) fun x ts => .ok (.double x, ts)
  | "boolean" => andThen (readBoolean ts) fun b ts => .ok (.boolean b, ts)
  | _ => fail

/-- A term is an object with one member, named for the kind of term. -/
def readTerm : Reader Term
  | .openObject :: .string (some kind) :: .colon :: ts =>
    endingWith .closeObject (readTermOf kind ts)
  | _ => fail

def optionalTokens : Option String → List Token
  | none => [.null]
  | some s => [.string (some s)]

def literalTokens (l : Literal) : List Token :=
  [.openObject, .string (some "lexical"), .colon, .string (some l.lexical),
    .comma, .string (some "datatype"), .colon] ++ optionalTokens l.datatype
    ++ [.comma, .string (some "language"), .colon] ++ optionalTokens l.language ++ [.closeObject]

/-- A double that is not finite is written as `null`, which is not read as a double. -/
def doubleToken (x : Binary64) : Token :=
  match Numeral.ofBinary64? x with
  | some n => .number n
  | none => .null

def termTokens (t : Term) : List Token :=
  let (kind, value) := match t with
    | .iri s => ("iri", [Token.string (some s)])
    | .blank s => ("blank_node", [.string (some s)])
    | .literal l => ("literal", literalTokens l)
    | .integer i => ("integer", [.number (.ofInt i.toInt)])
    | .double x => ("double", [doubleToken x])
    | .boolean b => ("boolean", [.boolean b])
  [.openObject, .string (some kind), .colon] ++ value ++ [.closeObject]

/-! ### Solutions -/

def readBinding : Reader Binding
  | .openList :: ts =>
    andThen (endingWith .comma (readVariable ts)) fun v ts =>
      andThen (endingWith .closeList (readTerm ts)) fun t ts => .ok ((v, t), ts)
  | _ => fail

def readSolution : Reader Solution := fun ts =>
  andThen (Reader.list readBinding ts) fun bindings ts => .ok (.ofBindings bindings, ts)

def bindingTokens (b : Binding) : List Token := listTokens [variableTokens b.1, termTokens b.2]

def solutionTokens (s : Solution) : List Token := listTokens (s.bindings.map bindingTokens)

/-! ### Configurations -/

def readJoinVariables : Reader JoinVariables := fun ts =>
  andThen (Reader.list readVariable ts) fun vars ts => match JoinVariables.ofList vars with
    | .ok joinVariables => .ok (joinVariables, ts)
    | .error e => .error (.invalid e)

def readPolicy : Reader KeyPolicy := Reader.label KeyPolicy.ofLabel?

def readOperator : Reader Operator := Reader.label Operator.ofLabel?

structure ConfigFields where
  joinVariables : Option JoinVariables := none
  policy : Option KeyPolicy := none
  deriving DecidableEq

namespace ConfigFields

/-- No field may come twice. -/
def read : Option String → ConfigFields → Reader ConfigFields
  | some "join_vars", f, ts => if f.joinVariables.isSome then fail else
    andThen (readJoinVariables ts) fun vars ts => .ok ({ f with joinVariables := some vars }, ts)
  | some "unbound", f, ts => if f.policy.isSome then fail else
    andThen (readPolicy ts) fun policy ts => .ok ({ f with policy := some policy }, ts)
  | some _, f, ts => andThen (Reader.skip ts) fun _ ts => .ok (f, ts)
  | none, _, _ => fail

end ConfigFields

/-- A policy that is not given is `reject`. -/
def readConfig : Reader Config
  | .openList :: ts =>
    andThen (readJoinVariables ts) fun joinVariables ts => match ts with
      | .closeList :: ts => .ok ({ joinVariables }, ts)
      | .comma :: ts => andThen (endingWith .closeList (readPolicy ts)) fun policy ts =>
        .ok (⟨joinVariables, policy⟩, ts)
      | _ => fail
  | ts => andThen (Reader.object ConfigFields.read {} ts) fun f ts => match f.joinVariables with
    | some joinVariables => .ok (⟨joinVariables, f.policy.getD .reject⟩, ts)
    | none => fail

def joinVariablesTokens (vars : JoinVariables) : List Token := listTokens (vars.vars.map variableTokens)

def policyTokens (policy : KeyPolicy) : List Token := [.string (some policy.label)]

def operatorTokens (op : Operator) : List Token := [.string (some op.label)]

def configTokens (c : Config) : List Token :=
  [.openObject, .string (some "join_vars"), .colon] ++ joinVariablesTokens c.joinVariables
    ++ [.comma, .string (some "unbound"), .colon] ++ policyTokens c.policy ++ [.closeObject]

end HashJoin.Json
