import HashJoin.Index.Matching
import HashJoin.Index.Scan

/-! Whole operators. The build side is stored, the probe side is matched against it one
solution at a time, and at the end the build solutions are scanned for those that the
operator gives out unmerged. `distinct` takes both sides as one stream and keeps what
it has not seen. -/

namespace HashJoin

namespace Config

/-- An operator that must store every build solution indexes unbound variables, whatever
the configuration says. -/
def upgraded (c : Config) (op : Operator) : Config :=
  if op.policy.indexesUnbound then { c with policy := .index } else c

end Config

structure Evaluation where
  /-- What is given out in the order of the input. -/
  head : List Solution
  /-- What the scan at the end gives out. -/
  tail : List Solution
  counters : Counters
  deriving DecidableEq

namespace Evaluation

def output (e : Evaluation) : List Solution := e.head ++ e.tail

end Evaluation

namespace Operator

/-- The build solutions that are given out after the last probe. -/
def sweptClass? : Operator → Option HitClass
  | optional | anti | minus => some .unmatched
  | semi => some .matched
  | inner | distinct => none

def sweep (op : Operator) (ix : Index) : Step Index (List Solution) :=
  match op.sweptClass? with
  | some hitClass => ix.scan hitClass
  | none => ⟨[], ix, 0⟩

/-- The solutions of a stream that were not seen before. -/
def evaluateStream (config : Config) (stream : List Solution) : Evaluation :=
  let seen := Step.each Index.insertNew (Index.new 0 config) stream
  { head := (stream.zip seen.answer).filterMap fun p => if p.2 then some p.1 else none
    tail := []
    counters := seen.counters }

def evaluateSides (op : Operator) (config : Config) (build probe : List Solution) : Evaluation :=
  let built := (Index.new 0 config).insertAll build
  let probed := Step.each (fun ix p => ix.join op p) built.state probe
  let swept := op.sweep probed.state
  { head := probed.answer.flatMap Matches.merged
    tail := swept.answer
    counters := built.counters + probed.counters + swept.counters }

def evaluate (op : Operator) (config : Config) (build probe : List Solution) : Evaluation :=
  match op with
  | distinct => evaluateStream (config.upgraded distinct) (build ++ probe)
  | op => op.evaluateSides (config.upgraded op) build probe

end Operator

end HashJoin
