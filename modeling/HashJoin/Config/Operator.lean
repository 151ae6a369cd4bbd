/-! The operators that an index serves, and what each asks of it. -/

namespace HashJoin

/-- What becomes of a solution that leaves a join variable unbound. -/
inductive KeyPolicy where
  /-- It is turned away: neither stored nor usable as a probe. -/
  | reject
  /-- It is stored under a key that marks the unbound places. -/
  | index
  deriving DecidableEq

namespace KeyPolicy

def label : KeyPolicy → String
  | reject => "reject"
  | index => "index"

def all : List KeyPolicy := [reject, index]

def ofLabel? (label : String) : Option KeyPolicy := all.find? (·.label = label)

def indexesUnbound : KeyPolicy → Bool
  | reject => false
  | index => true

def ofFlag (indexUnbound : Bool) : KeyPolicy := if indexUnbound then index else reject

end KeyPolicy

/-- The build side of an operator is stored in an index, and its probe side is matched
against what is stored. -/
inductive Operator where
  /-- The merges of matching pairs. -/
  | inner
  /-- The merges of matching pairs, then the build solutions without a match. -/
  | optional
  /-- The build solutions with a match. -/
  | semi
  /-- The build solutions without a match. -/
  | anti
  /-- As `anti`, but only a pair that shares a bound variable can match. -/
  | minus
  /-- The solutions of both sides without repetitions. -/
  | distinct
  deriving DecidableEq

namespace Operator

/-- The names are those of the query language, where a semijoin is asked for by `EXISTS`. -/
def label : Operator → String
  | inner => "inner"
  | optional => "optional"
  | semi => "exists"
  | anti => "not_exists"
  | minus => "minus"
  | distinct => "distinct"

def all : List Operator := [inner, optional, semi, anti, minus, distinct]

def ofLabel? (label : String) : Option Operator := all.find? (·.label = label)

/-- Operators that can give out a build solution without a match, or any solution at all,
must store every one. -/
def policy : Operator → KeyPolicy
  | inner | semi => .reject
  | optional | anti | minus | distinct => .index

/-- Whether the hits of entries are read once the probes are done. -/
def countsHits : Operator → Bool
  | inner | distinct => false
  | optional | semi | anti | minus => true

/-- Whether a match gives a merged solution. -/
def emitsMerges : Operator → Bool
  | inner | optional => true
  | semi | anti | minus | distinct => false

end Operator

end HashJoin
