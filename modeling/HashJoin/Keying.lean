import HashJoin.Config
import HashJoin.Key
import HashJoin.Solution

/-! The key of a solution under a configuration. The join variables are looked up in
declared order; the first one that is unbound leaves the solution without a key, unless
unbound variables are indexed, when it becomes an unbound slot. -/

namespace HashJoin

inductive Keying where
  | key (k : Key)
  /-- The first join variable that the solution leaves unbound. -/
  | missing (v : Variable)
  deriving DecidableEq

namespace Keying

def key? : Keying → Option Key
  | key k => some k
  | missing _ => none

def isMissing : Keying → Bool
  | key _ => false
  | missing _ => true

/-- The slots of the variables, or the first variable that has none. -/
def slots (policy : KeyPolicy) (s : Solution) : List Variable → Except Variable (List Slot)
  | [] => .ok []
  | v :: vs => match s.get? v, policy with
    | none, .reject => .error v
    | slot, _ => (slots policy s vs).map (slot :: ·)

end Keying

namespace Config

def keying (c : Config) (s : Solution) : Keying :=
  match Keying.slots c.policy s c.joinVariables.vars with
  | .ok slots => .key (.ofSlots slots)
  | .error v => .missing v

end Config

end HashJoin
