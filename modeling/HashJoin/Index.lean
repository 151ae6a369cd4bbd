import HashJoin.Buckets
import HashJoin.Keying
import HashJoin.Step

/-! An index of solutions by their keys. The buckets hold the numbers of the stored
entries; the ledger holds the entries themselves, removed ones included. An index
touches only entries that it made, and a bucket goes with its last entry. -/

namespace HashJoin

structure Index where
  owner : Nat
  config : Config
  buckets : Buckets
  ledger : Ledger := #[]
  /-- The number of stored entries. -/
  stored : Nat := 0

/-- How many of the solutions offered were stored and how many turned away. -/
structure Intake where
  stored : Nat := 0
  rejected : Nat := 0
  deriving DecidableEq

namespace Index

/-- A new index on a hash map. -/
def new (owner : Nat) (config : Config) : Index := { owner, config, buckets := .empty .hashed }

/-- A new index on a given map, which must be empty. -/
def onMap (owner : Nat) (config : Config) (buckets : Buckets) : Except ConfigError Index :=
  if buckets.size = 0 then .ok { owner, config, buckets } else .error (.mapNotEmpty buckets.size)

def keying (ix : Index) (s : Solution) : Keying := ix.config.keying s

def bucketCount (ix : Index) : Nat := ix.buckets.size

def isEmpty (ix : Index) : Bool := ix.stored = 0

/-- The entry of a handle, if this index made it. -/
def entry? (ix : Index) (h : Handle) : Option Entry :=
  if h.owner = ix.owner then ix.ledger[h.id]? else none

/-- Whether a handle is that of a live entry which this index made. -/
def isLive (ix : Index) (h : Handle) : Bool := ix.entry? h |>.any Entry.live

theorem isLive_iff (ix : Index) (h : Handle) : ix.isLive h = true ↔
    h.owner = ix.owner ∧ ix.ledger[h.id]?.any Entry.live = true := by
  unfold isLive entry?
  split
  next ho => exact (and_iff_right ho).symm
  next ho => exact iff_of_false nofun (ho ·.1)

/-- The numbers of the stored entries, as the map lists its buckets. -/
def storedIds (ix : Index) : List EntryId := ix.buckets.toList.flatMap Prod.snd

/-! ### Storing -/

/-- Store a solution under its key, as the entry with the next number. -/
def append (ix : Index) (k : Key) (s : Solution) : Index :=
  { ix with
    buckets := (ix.buckets.ensure k).modify k (· ++ [ix.ledger.size])
    ledger := ix.ledger.push { solution := s }
    stored := ix.stored + 1 }

def insertKeyed (ix : Index) (s : Solution) : Keying → Step Index (Option EntryId)
  | .key k => ⟨some ix.ledger.size, ix.append k s, { inserts := 1 }⟩
  | .missing _ => ⟨none, ix, { rejected := 1 }⟩

/-- Store a solution, whether or not an equal one is there. -/
def insert (ix : Index) (s : Solution) : Step Index (Option EntryId) :=
  ix.insertKeyed s (ix.keying s)

def addKeyed (acc : Index × Intake) (item : Keying × Solution) : Index × Intake :=
  match item.1 with
  | .key k => (acc.1.append k item.2, { acc.2 with stored := acc.2.stored + 1 })
  | .missing _ => (acc.1, { acc.2 with rejected := acc.2.rejected + 1 })

def insertAllKeyed (ix : Index) (items : List (Keying × Solution)) : Step Index Intake :=
  let result := items.foldl addKeyed (ix, {})
  ⟨result.2, result.1, { inserts := result.2.stored, rejected := result.2.rejected }⟩

/-- Store many solutions at once. -/
def insertAll (ix : Index) (solutions : List Solution) : Step Index Intake :=
  ix.insertAllKeyed (solutions.map fun s => (ix.keying s, s))

/-- Whether an entry of the bucket has this solution. -/
def holds (ix : Index) (bucket : Bucket) (s : Solution) : Bool :=
  bucket.any fun id => ix.ledger[id]?.any (·.solution = s)

def insertNewKeyed (ix : Index) (s : Solution) : Keying → Step Index Bool
  | .missing _ => ⟨false, ix, { rejected := 1 }⟩
  | .key k =>
    if (ix.buckets.get? k).any (ix.holds · s) then ⟨false, ix, { probes := 1 }⟩
    else ⟨true, ix.append k s, { probes := 1, inserts := 1 }⟩

/-- Store a solution unless an equal one is there, and say whether it was stored. -/
def insertNew (ix : Index) (s : Solution) : Step Index Bool := ix.insertNewKeyed s (ix.keying s)

/-! ### Looking up and marking -/

def lookup (ix : Index) (k : Key) : Step Index (Option Bucket) :=
  ⟨ix.buckets.get? k, ix, { probes := 1 }⟩

def probeKeyed (ix : Index) : Keying → Step Index (Option Bucket)
  | .key k => ix.lookup k
  | .missing _ => ⟨none, ix, 0⟩

/-- The bucket of the key of a solution; one that has no key meets nothing. -/
def probe (ix : Index) (s : Solution) : Step Index (Option Bucket) := ix.probeKeyed (ix.keying s)

/-- Count a match on an entry, if it is a live one of this index. -/
def mark (ix : Index) (h : Handle) : Step Index Bool :=
  if ix.isLive h then
    ⟨true, { ix with ledger := ix.ledger.modify h.id Entry.hit }, { hits := 1 }⟩
  else ⟨false, ix, 0⟩

/-- Clear the hits of all stored entries. -/
def clearHits (ix : Index) : Step Index Unit :=
  ⟨(), { ix with ledger := ix.storedIds.foldl (fun l id => l.modify id Entry.clear) ix.ledger }, 0⟩

/-! ### Removing -/

/-- Remove an entry of this index from the bucket of a key, if it is there. -/
def remove (ix : Index) (k : Key) (h : Handle) : Step Index Bool :=
  match ix.buckets.get? k with
  | none => ⟨false, ix, 0⟩
  | some bucket =>
    if h.owner = ix.owner ∧ h.id ∈ bucket then
      let isLast := (bucket.erase h.id).isEmpty
      ⟨true,
        { ix with
          buckets := if isLast then ix.buckets.erase k else ix.buckets.modify k (·.erase h.id)
          ledger := ix.ledger.modify h.id Entry.retire
          stored := ix.stored - 1 },
        { removals := 1, bucketsDropped := if isLast then 1 else 0 }⟩
    else ⟨false, ix, 0⟩

/-- Remove the whole bucket of a key. -/
def removeBucket (ix : Index) (k : Key) : Step Index (Option Bucket) :=
  match ix.buckets.get? k with
  | none => ⟨none, ix, 0⟩
  | some bucket =>
    ⟨some bucket,
      { ix with
        buckets := ix.buckets.erase k
        ledger := bucket.foldl (fun l id => l.modify id Entry.retire) ix.ledger
        stored := ix.stored - bucket.length },
      { removals := bucket.length, bucketsDropped := 1 }⟩

end Index

end HashJoin
