import HashJoin.Index.Matching
import HashJoin.Index.Scan
import HashJoin.Index.Summary

/-! An index that is used while it changes. It forms keys from its own copy of the
configuration, hands out buckets and scans as snapshots, and lets entries be removed. -/

namespace HashJoin

structure SharedIndex where
  config : Config
  core : Index

namespace SharedIndex

def ofIndex (ix : Index) : SharedIndex := ⟨ix.config, ix⟩

/-- A new shared index on a hash map. -/
def new (owner : Nat) (config : Config) : SharedIndex := ofIndex (.new owner config)

def onMap (owner : Nat) (config : Config) (buckets : Buckets) : Except ConfigError SharedIndex :=
  (Index.onMap owner config buckets).map ofIndex

def keying (ix : SharedIndex) (s : Solution) : Keying := ix.config.keying s

/-- A step of the index inside. -/
def lift {α : Type} (ix : SharedIndex) (step : Step Index α) : Step SharedIndex α :=
  step.map (fun core => { ix with core }) id

def insert (ix : SharedIndex) (s : Solution) : Step SharedIndex (Option EntryId) :=
  ix.lift (ix.core.insertKeyed s (ix.keying s))

def insertAll (ix : SharedIndex) (solutions : List Solution) : Step SharedIndex Intake :=
  ix.lift (ix.core.insertAllKeyed (solutions.map fun s => (ix.keying s, s)))

def insertNew (ix : SharedIndex) (s : Solution) : Step SharedIndex Bool :=
  ix.lift (ix.core.insertNewKeyed s (ix.keying s))

def lookup (ix : SharedIndex) (k : Key) : Step SharedIndex (Option Bucket) :=
  ix.lift (ix.core.lookup k)

def probe (ix : SharedIndex) (s : Solution) : Step SharedIndex (Option Bucket) :=
  ix.lift (ix.core.probeKeyed (ix.keying s))

def mark (ix : SharedIndex) (h : Handle) : Step SharedIndex Bool := ix.lift (ix.core.mark h)

def clearHits (ix : SharedIndex) : Step SharedIndex Unit := ix.lift ix.core.clearHits

def remove (ix : SharedIndex) (k : Key) (h : Handle) : Step SharedIndex Bool :=
  ix.lift (ix.core.remove k h)

def removeBucket (ix : SharedIndex) (k : Key) : Step SharedIndex (Option Bucket) :=
  ix.lift (ix.core.removeBucket k)

def openScan (ix : SharedIndex) (hitClass : HitClass) : Cursor := ix.core.openScan hitClass

/-- The solutions of a cursor opened now, or only the first `limit` of them. -/
def scan (ix : SharedIndex) (hitClass : HitClass) (limit : Option Nat := none) :
    Step SharedIndex (List Solution) :=
  let all := hitClass.solutions ix.core.ledger (ix.openScan hitClass).remaining
  let found := match limit with
    | some n => all.take n
    | none => all
  ⟨found, ix, hitClass.emitting found.length⟩

def summary (ix : SharedIndex) : Summary := ix.core.summary

def join (ix : SharedIndex) (op : Operator) (probe : Solution) : Step SharedIndex Matches :=
  (ix.probe probe).andThen fun ix bucket => ix.lift (ix.core.joinBucket op probe bucket)

def consume (ix : SharedIndex) (op : Operator) (probe : Solution) : Step SharedIndex Matches :=
  ix.lift (ix.core.consumeKeyed op probe (ix.keying probe))

/-! ### Drafts -/

/-- The settings and the map that a shared index will be made from. -/
structure Draft where
  config : Config.Draft := {}
  buckets : Option Buckets := none

inductive Setting where
  | config (setting : Config.Setting)
  | buckets (buckets : Buckets)

namespace Draft

def set (d : Draft) : Setting → Draft
  | .config setting => { d with config := d.config.set setting }
  | .buckets buckets => { d with buckets := some buckets }

def ofSettings (settings : List Setting) : Draft := settings.foldl set {}

/-- The configuration is checked before the map. -/
def index (d : Draft) (owner : Nat) : Except ConfigError SharedIndex :=
  match d.config.config, d.buckets with
  | .error e, _ => .error e
  | .ok _, none => .error .noMap
  | .ok config, some buckets => onMap owner config buckets

end Draft

end SharedIndex

end HashJoin
