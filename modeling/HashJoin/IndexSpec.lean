import HashJoin.AnyIndex

/-! What an index is to be made from. Of several faults the configuration's comes first,
and of several indices the first one that cannot be made gives the error. -/

namespace HashJoin

/-- A configuration to be made: the one that an operator needs, or one by settings. -/
inductive ConfigSource where
  | forOperator (op : Operator) (vars : List Variable)
  | ofSettings (settings : List Config.Setting)
  deriving DecidableEq

namespace ConfigSource

def config : ConfigSource → Except ConfigError Config
  | forOperator op vars => (JoinVariables.ofList vars).map (Config.forOperator op)
  | ofSettings settings => (Config.Draft.ofSettings settings).config

end ConfigSource

structure IndexSpec where
  isShared : Bool
  source : ConfigSource
  /-- The map to stand on; without one the index gets a hash map. -/
  map : Option Buckets := none

namespace IndexSpec

def index (spec : IndexSpec) (owner : Nat) : Except ConfigError AnyIndex :=
  match spec.source.config with
  | .error e => .error e
  | .ok config => match spec.isShared, spec.map with
    | false, none => .ok (.base (.new owner config))
    | false, some map => (Index.onMap owner config map).map .base
    | true, none => .ok (.shared (.new owner config))
    | true, some map => (SharedIndex.onMap owner config map).map .shared

/-- One index for each specification; their owners are numbered on from `owner`. -/
def indices (owner : Nat) : List IndexSpec → Except ConfigError (List AnyIndex)
  | [] => .ok []
  | spec :: specs => match spec.index owner with
    | .error e => .error e
    | .ok ix => (indices (owner + 1) specs).map (ix :: ·)

end IndexSpec

end HashJoin
