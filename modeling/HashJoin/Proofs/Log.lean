import HashJoin.AnyIndex
import Mathlib.Data.List.Dedup

/-! The log of an index: its stored entries in one list, in the order of their arrival.
There are no buckets, no counts that are kept beside the entries, and no removed entries.
An operation changes the log in three ways only: it puts a record with the next number at
the end, it deletes records, or it changes numbers of hits. What an index answers is read
off the list. Only a scan and a list of all buckets are left open up to the order of the
keys, which is that of the map. -/

namespace HashJoin

namespace Keying

/-- Whether the solution has the key `k`. -/
def isKey (keying : Keying) (k : Key) : Bool := keying = .key k

theorem isKey_iff {keying : Keying} {k : Key} : keying.isKey k = true ↔ keying = .key k :=
  decide_eq_true_iff

theorem isKey_unique {keying : Keying} {k k' : Key} (h : keying.isKey k = true)
    (h' : keying.isKey k' = true) : k = k' := by
  rw [isKey_iff] at h h'
  exact Keying.key.inj (h.symm.trans h')

end Keying

namespace Config

/-- Whether a solution has the key `k` under the configuration. -/
def forms (c : Config) (k : Key) (s : Solution) : Bool := (c.keying s).isKey k

theorem forms_iff {c : Config} {k : Key} {s : Solution} :
    c.forms k s = true ↔ c.keying s = .key k := Keying.isKey_iff

theorem forms_unique {c : Config} {k k' : Key} {s : Solution} (h : c.forms k s = true)
    (h' : c.forms k' s = true) : k = k' := Keying.isKey_unique h h'

/-- The merge of a candidate with a probe of the same key, if the operator matches them. -/
def meet? (c : Config) (op : Operator) (candidate probe : Solution) : Option Solution :=
  match c.keying probe with
  | .key k => if c.forms k candidate then op.match? candidate probe else none
  | .missing _ => none

/-- Whether the operator matches a candidate with a probe of the same key. -/
def meets (c : Config) (op : Operator) (candidate probe : Solution) : Bool :=
  (c.meet? op candidate probe).isSome

end Config

/-- A stored entry, as the log has it. -/
structure Record where
  id : EntryId
  solution : Solution
  hits : Nat := 0
  deriving DecidableEq

namespace Record

def isIn : HitClass → Record → Bool
  | .unmatched, r => r.hits = 0
  | .matched, r => 0 < r.hits

end Record

structure Log where
  owner : Nat
  config : Config
  /-- The number of the next entry. -/
  next : EntryId := 0
  records : List Record := []
  deriving DecidableEq

namespace Log

/-! ### What is read off the list -/

/-- The records of one key. -/
def chain (l : Log) (k : Key) : List Record := l.records.filter fun r => l.config.forms k r.solution

def bucket? (l : Log) (k : Key) : Option (List Record) :=
  if l.chain k = [] then none else some (l.chain k)

/-- The keys of the records, each of them once. -/
def keys (l : Log) : List Key :=
  (l.records.filterMap fun r => (l.config.keying r.solution).key?).dedup

def solutionsIn (l : Log) (hitClass : HitClass) : List Solution :=
  (l.records.filter (Record.isIn hitClass)).map Record.solution

def summary (l : Log) : Summary where
  buckets := l.keys.length
  solutions := l.records.length
  matched := l.records.countP (Record.isIn .matched)
  unmatched := l.records.countP (Record.isIn .unmatched)
  largest := (l.keys.map fun k => (l.chain k).length).foldl max 0

def owns (l : Log) (h : Handle) : Bool := h.owner = l.owner && l.records.any (·.id = h.id)

/-- Whether the entry of a handle is stored under the key `k`. -/
def ownsUnder (l : Log) (k : Key) (h : Handle) : Bool :=
  h.owner = l.owner && (l.chain k).any (·.id = h.id)

def holds (l : Log) (s : Solution) : Bool := l.records.any (·.solution = s)

/-- What a probe meets. -/
def outcome (l : Log) (op : Operator) (probe : Solution) : Matches :=
  let merges := l.records.filterMap fun r => l.config.meet? op r.solution probe
  { merged := if op.emitsMerges then merges else [], count := merges.length }

/-! ### The three ways to change it -/

def append (l : Log) (s : Solution) : Log :=
  { l with next := l.next + 1, records := l.records ++ [⟨l.next, s, 0⟩] }

def delete (l : Log) (gone : Record → Bool) : Log :=
  { l with records := l.records.filter fun r => !gone r }

def recount (l : Log) (hits : Record → Nat) : Log :=
  { l with records := l.records.map fun r => { r with hits := hits r } }

/-! ### Operations -/

def insert (l : Log) (s : Solution) : Log :=
  if (l.config.keying s).isMissing then l else l.append s

def insertAll (l : Log) (solutions : List Solution) : Log := solutions.foldl insert l

def insertNew (l : Log) (s : Solution) : Log := if l.holds s then l else l.insert s

def mark (l : Log) (h : Handle) : Log :=
  if h.owner = l.owner then l.recount fun r => if r.id = h.id then r.hits + 1 else r.hits else l

def clearHits (l : Log) : Log := l.recount fun _ => 0

def remove (l : Log) (k : Key) (h : Handle) : Log :=
  if h.owner = l.owner then l.delete fun r => r.id = h.id && l.config.forms k r.solution else l

def removeBucket (l : Log) (k : Key) : Log := l.delete fun r => l.config.forms k r.solution

def join (l : Log) (op : Operator) (probe : Solution) : Log :=
  if op.countsHits then
    l.recount fun r => if l.config.meets op r.solution probe then r.hits + 1 else r.hits
  else l

def consume (l : Log) (op : Operator) (probe : Solution) : Log :=
  l.delete fun r => l.config.meets op r.solution probe

/-- The log after an operation on an index, which takes removals only while it is shared. -/
def step (isShared : Bool) (l : Log) : IndexOp → Log
  | .insert s => l.insert s
  | .insertAll solutions => l.insertAll solutions
  | .insertNew s => l.insertNew s
  | .mark h => l.mark h
  | .clearHits => l.clearHits
  | .join op probe => l.join op probe
  | .remove k h => if isShared then l.remove k h else l
  | .removeBucket k => if isShared then l.removeBucket k else l
  | .consume op probe => if isShared then l.consume op probe else l
  | .keying _ | .lookup _ | .probe _ | .scan .. | .summary | .config | .unshare | .buckets => l

/-! ### Replies -/

def snapshot (l : Log) (records : List Record) : Snapshot := ⟨l.owner, records.map Record.id⟩

/-- The list of all buckets, in some order of the keys. -/
def Lists (l : Log) (listed : List (Key × Snapshot)) : Prop :=
  ∃ keys : List Key, keys.Perm l.keys ∧ listed = keys.map fun k => (k, l.snapshot (l.chain k))

/-- The replies that the log leaves open for an operation. -/
def Allows (isShared : Bool) (l : Log) : IndexOp → Reply → Prop
  | .insert s, reply =>
    reply = .entry (if (l.config.keying s).isMissing then none else some ⟨l.owner, l.next⟩)
  | .insertAll solutions, reply =>
    reply = .intake ⟨solutions.countP fun s => !(l.config.keying s).isMissing,
      solutions.countP fun s => (l.config.keying s).isMissing⟩
  | .insertNew s, reply => reply = .flag (!(l.config.keying s).isMissing && !l.holds s)
  | .keying s, reply => reply = .keying (l.config.keying s)
  | .lookup k, reply => reply = .bucket ((l.bucket? k).map l.snapshot)
  | .probe s, reply =>
    reply = .bucket (((l.config.keying s).key?.bind l.bucket?).map l.snapshot)
  | .mark h, reply => reply = .flag (l.owns h)
  | .clearHits, reply => reply = .done
  | .scan hitClass limit, reply =>
    ∃ all : List Solution, all.Perm (l.solutionsIn hitClass) ∧
      reply = .solutions (all.take (limit.getD all.length))
  | .summary, reply => reply = .summary l.summary
  | .config, reply => reply = .config l.config
  | .join op probe, reply => reply = .matches (l.outcome op probe)
  | .unshare, reply => reply = .done
  | .buckets, reply =>
    if isShared then reply = .unavailable else ∃ listed, l.Lists listed ∧ reply = .buckets listed
  | .remove k h, reply => reply = if isShared then .flag (l.ownsUnder k h) else .unavailable
  | .removeBucket k, reply =>
    reply = if isShared then .bucket ((l.bucket? k).map l.snapshot) else .unavailable
  | .consume op probe, reply =>
    reply = if isShared then .matches (l.outcome op probe) else .unavailable

/-- The log after a list of operations. -/
def run (isShared : Bool) (l : Log) : List IndexOp → Log
  | [] => l
  | op :: ops => run (isShared && op ≠ .unshare) (l.step isShared op) ops

/-- Whether each of a list of replies is one that the log allows when its turn comes. -/
def Explains (isShared : Bool) (l : Log) : List IndexOp → List Reply → Prop
  | [], [] => True
  | op :: ops, reply :: replies =>
    l.Allows isShared op reply ∧
      Explains (isShared && op ≠ .unshare) (l.step isShared op) ops replies
  | _, _ => False

end Log

end HashJoin
