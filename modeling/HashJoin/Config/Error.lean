/-! What can be wrong with the configuration of an index. Nothing else fails: a solution
that leaves a join variable unbound is turned away without an error. -/

namespace HashJoin

inductive ConfigError where
  /-- No list of join variables was given, not even an empty one. -/
  | noVariables
  | repeatedVariable (name : String)
  | unnamedVariable
  | noMap
  /-- The map that the index was to stand on has buckets already. -/
  | mapNotEmpty (buckets : Nat)
  deriving DecidableEq

namespace ConfigError

def message : ConfigError → String
  | noVariables => "join variable list is required (use an empty list for a cross-product join)"
  | repeatedVariable name => "duplicate join variable: ?" ++ name
  | unnamedVariable => "join variable name must not be empty"
  | noMap => "backing map is required"
  | mapNotEmpty buckets =>
    "backing map must be empty, found " ++ toString buckets ++ " bucket(s)"

/-- There is never an index to work with after such an error. -/
def isFatal : ConfigError → Bool
  | noVariables | repeatedVariable _ | unnamedVariable | noMap | mapNotEmpty _ => true

end ConfigError

end HashJoin
