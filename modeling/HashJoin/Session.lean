import HashJoin.IndexSpec

/-! Several indices at work side by side, with the scans that were opened on them. Each
index is known by its place, which is also the owner of its entries. A session is
driven by operations; each gives a reply, and the increases of the counters add up. A
handle or a snapshot from one index can be offered to another, which takes no notice.

A shared index is scanned by cursors, whatever happens to it meanwhile. An index that is
not shared is scanned lazily: a scan goes through the buckets of the index itself, which can
be looked up, probed and marked between two calls. It is over when an entry comes in. -/

namespace HashJoin

/-- An operation of a session. Indices and scans are given by their places. -/
inductive Op where
  | on (place : Nat) (op : IndexOp)
  | openScan (place : Nat) (hitClass : HitClass)
  | next (cursor : Nat)
  | rest (cursor : Nat)
  /-- Open a lazy scan; only on an index that is not shared. -/
  | openLazy (place : Nat) (hitClass : HitClass)
  | nextLazy (scan : Nat)
  deriving DecidableEq

/-- A lazy scan of the index at a place, which had made so many entries when it was opened. -/
structure PlacedScan where
  place : Nat
  made : Nat
  scan : LazyScan
  deriving DecidableEq

structure Session where
  indices : List AnyIndex
  cursors : List Cursor := []
  lazyScans : List PlacedScan := []
  counters : Counters := 0

namespace Session

/-- New indices side by side. -/
def ofSpecs (specs : List IndexSpec) : Except ConfigError Session :=
  (IndexSpec.indices 0 specs).map fun indices => { indices }

/-! ### Reading what was handed out -/

def ledger (s : Session) (owner : Nat) : Ledger :=
  match s.indices[owner]? with
  | some ix => ix.core.ledger
  | none => #[]

def entry? (s : Session) (h : Handle) : Option Entry := (s.ledger h.owner)[h.id]?

/-- The entries of a snapshot as they are now. -/
def entries (s : Session) (b : Snapshot) : List (EntryId × Entry) :=
  b.ids.filterMap fun id => ((s.ledger b.owner)[id]?).map (id, ·)

def unmatchedCount (s : Session) (b : Snapshot) : Nat := (s.ledger b.owner).unmatchedCount b.ids

def holds (s : Session) (b : Snapshot) (solution : Solution) : Bool :=
  (s.entries b).any (·.2.solution = solution)

/-! ### Operations -/

def readCursor (s : Session) (c : Nat) (read : Cursor → Ledger → Step Cursor Reply) :
    Session × Reply :=
  match s.cursors[c]? with
  | none => (s, .unavailable)
  | some cursor =>
    let step := read cursor (s.ledger cursor.owner)
    ({ s with cursors := s.cursors.set c step.state, counters := s.counters + step.counters },
      step.answer)

/-- A lazy scan goes on as long as no entry has come in. -/
def readLazy (s : Session) (c : Nat) (found : PlacedScan) : Session × Reply :=
  let ledger := s.ledger found.place
  if ledger.size = found.made then
    let step := found.scan.next ledger
    ({ s with
        lazyScans := s.lazyScans.set c { found with scan := step.state }
        counters := s.counters + step.counters },
      .solutions step.answer.toList)
  else (s, .unavailable)

def step (s : Session) : Op → Session × Reply
  | .on i op => match s.indices[i]? with
    | none => (s, .unavailable)
    | some ix =>
      let step := ix.perform op
      ({ s with indices := s.indices.set i step.state, counters := s.counters + step.counters },
        step.answer)
  | .openScan i hitClass => match s.indices[i]? with
    | some (.shared ix) =>
      let cursor := ix.openScan hitClass
      ({ s with cursors := s.cursors ++ [cursor] },
        .opened s.cursors.length cursor.remaining.length)
    | _ => (s, .unavailable)
  | .next c => s.readCursor c fun cursor ledger =>
    let step := cursor.next ledger
    step.map id fun found => .next found step.state.remaining.length
  | .rest c => s.readCursor c fun cursor ledger => (cursor.rest ledger).map id .solutions
  | .openLazy i hitClass => match s.indices[i]? with
    | some (.base ix) =>
      let found : PlacedScan := ⟨i, ix.ledger.size, ix.lazyScan hitClass⟩
      ({ s with lazyScans := s.lazyScans ++ [found] }, .done)
    | _ => (s, .unavailable)
  | .nextLazy c => match s.lazyScans[c]? with
    | none => (s, .unavailable)
    | some found => s.readLazy c found

/-- The operations one after the other, with their replies. -/
def run (s : Session) : List Op → Session × List Reply
  | [] => (s, [])
  | op :: ops =>
    let (next, reply) := s.step op
    let (last, replies) := next.run ops
    (last, reply :: replies)

@[simp] theorem run_nil (s : Session) : s.run [] = (s, []) := rfl

@[simp] theorem run_cons (s : Session) (op : Op) (ops : List Op) :
    s.run (op :: ops) = (((s.step op).1.run ops).1, (s.step op).2 :: ((s.step op).1.run ops).2) := rfl

theorem run_append (s : Session) (ops more : List Op) :
    s.run (ops ++ more) =
      (((s.run ops).1.run more).1, (s.run ops).2 ++ ((s.run ops).1.run more).2) := by
  induction ops generalizing s with
  | nil => simp
  | cons op ops ih => simp [ih]

end Session

end HashJoin
