import HashJoin.Config.JoinVariables
import HashJoin.Config.Operator

/-! The configuration of an index: its join variables and what it does with solutions
that leave one of them unbound. A draft collects settings, of which the last of each
sort counts, and is checked when the configuration is made from it. -/

namespace HashJoin

structure Config where
  joinVariables : JoinVariables
  policy : KeyPolicy := .reject
  deriving DecidableEq

namespace Config

/-- The configuration that an operator needs. -/
def forOperator (op : Operator) (joinVariables : JoinVariables) : Config :=
  ⟨joinVariables, op.policy⟩

inductive Setting where
  | vars (vars : List Variable)
  | policy (policy : KeyPolicy)
  | indexUnbound (flag : Bool)
  deriving DecidableEq

/-- A configuration before its join variables are given and checked. -/
structure Draft where
  vars : Option (List Variable) := none
  policy : KeyPolicy := .reject
  deriving DecidableEq

namespace Draft

def set (d : Draft) : Setting → Draft
  | .vars vars => { d with vars := some vars }
  | .policy policy => { d with policy }
  | .indexUnbound flag => { d with policy := .ofFlag flag }

def ofSettings (settings : List Setting) : Draft := settings.foldl set {}

/-- Join variables that were never given are an error; an empty list is not. -/
def config (d : Draft) : Except ConfigError Config :=
  match d.vars with
  | none => .error .noVariables
  | some vars => (JoinVariables.ofList vars).map fun joinVariables => ⟨joinVariables, d.policy⟩

end Draft

end Config

end HashJoin
