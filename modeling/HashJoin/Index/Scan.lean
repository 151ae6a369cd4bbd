import HashJoin.Index

/-! Scans for the entries that were matched, or for those that were not. A scan reads the
hits of an entry only when it comes to it. A lazy scan goes through the buckets of an
index, which nobody changes meanwhile; a cursor holds the entries that were stored when
it was opened, and it still gives out those that are removed before it reaches them. -/

namespace HashJoin

namespace HitClass

/-- The solution of the first entry in the class, and the entries after it. -/
def next? (hitClass : HitClass) (ledger : Ledger) :
    List EntryId → Option (Solution × List EntryId)
  | [] => none
  | id :: ids => match ledger[id]? with
    | some e => if hitClass.includes e then some (e.solution, ids) else hitClass.next? ledger ids
    | none => hitClass.next? ledger ids

/-- The solutions of all entries in the class. -/
def solutions (hitClass : HitClass) (ledger : Ledger) (ids : List EntryId) : List Solution :=
  ids.filterMap fun id => (ledger[id]?.filter hitClass.includes).map Entry.solution

theorem solutions_eq_nil {hitClass : HitClass} {ledger : Ledger} {ids : List EntryId}
    (h : hitClass.next? ledger ids = none) : hitClass.solutions ledger ids = [] := by
  fun_induction next? hitClass ledger ids with
  | case1 => rfl
  | case2 => contradiction
  | case3 id ids e he hc ih => exact (List.filterMap_cons_none (by simp [he, hc])).trans (ih h)
  | case4 id ids he ih => exact (List.filterMap_cons_none (by simp [he])).trans (ih h)

theorem solutions_eq_cons {hitClass : HitClass} {ledger : Ledger} {ids rest : List EntryId}
    {s : Solution} (h : hitClass.next? ledger ids = some (s, rest)) :
    hitClass.solutions ledger ids = s :: hitClass.solutions ledger rest := by
  fun_induction next? hitClass ledger ids with
  | case1 => contradiction
  | case2 id ids e he hc =>
    cases h
    exact List.filterMap_cons_some (by simp [he, hc, Option.filter])
  | case3 id ids e he hc ih => exact (List.filterMap_cons_none (by simp [he, hc])).trans (ih h)
  | case4 id ids he ih => exact (List.filterMap_cons_none (by simp [he])).trans (ih h)

end HitClass

/-- What is left of the bucket under way, and the buckets after it. -/
structure LazyScan where
  hitClass : HitClass
  current : Bucket
  later : List Bucket
  deriving DecidableEq

namespace LazyScan

/-- A scan of some buckets that has looked at nothing yet. -/
def ofBuckets (hitClass : HitClass) (buckets : List Bucket) : LazyScan := ⟨hitClass, [], buckets⟩

/-- The next solution, looked for first in what is left of one bucket and then in the
buckets after it. -/
def nextFrom (hitClass : HitClass) (ledger : Ledger) :
    Bucket → List Bucket → Option (Solution × LazyScan)
  | current, [] =>
    (hitClass.next? ledger current).map fun found => (found.1, ⟨hitClass, found.2, []⟩)
  | current, bucket :: later => match hitClass.next? ledger current with
    | some found => some (found.1, ⟨hitClass, found.2, bucket :: later⟩)
    | none => nextFrom hitClass ledger bucket later

def next? (scan : LazyScan) (ledger : Ledger) : Option (Solution × LazyScan) :=
  nextFrom scan.hitClass ledger scan.current scan.later

/-- Ask for the next solution, and count it. A scan that is through stays so. -/
def next (scan : LazyScan) (ledger : Ledger) : Step LazyScan (Option Solution) :=
  match scan.next? ledger with
  | some (s, rest) => ⟨some s, rest, scan.hitClass.emitting 1⟩
  | none => ⟨none, ofBuckets scan.hitClass [], 0⟩

/-- The entries that the scan has not looked at. -/
def remaining (scan : LazyScan) : List EntryId := scan.current ++ scan.later.flatten

/-- At most `n` further solutions. -/
def take (ledger : Ledger) : Nat → LazyScan → List Solution
  | 0, _ => []
  | n + 1, scan => match scan.next? ledger with
    | none => []
    | some (s, rest) => s :: take ledger n rest

/-- All further solutions; there are no more of them than entries left to look at. -/
def drain (ledger : Ledger) (scan : LazyScan) : List Solution :=
  scan.take ledger scan.remaining.length

end LazyScan

/-- The entries of an index that a scan opened earlier has still to look at. -/
structure Cursor where
  owner : Nat
  hitClass : HitClass
  remaining : List EntryId
  deriving DecidableEq

namespace Cursor

def next (cursor : Cursor) (ledger : Ledger) : Step Cursor (Option Solution) :=
  match cursor.hitClass.next? ledger cursor.remaining with
  | some (s, rest) => ⟨some s, { cursor with remaining := rest }, cursor.hitClass.emitting 1⟩
  | none => ⟨none, { cursor with remaining := [] }, 0⟩

/-- All further solutions. -/
def rest (cursor : Cursor) (ledger : Ledger) : Step Cursor (List Solution) :=
  let found := cursor.hitClass.solutions ledger cursor.remaining
  ⟨found, { cursor with remaining := [] }, cursor.hitClass.emitting found.length⟩

end Cursor

namespace Index

def lazyScan (ix : Index) (hitClass : HitClass) : LazyScan :=
  .ofBuckets hitClass (ix.buckets.toList.map Prod.snd)

def openScan (ix : Index) (hitClass : HitClass) : Cursor := ⟨ix.owner, hitClass, ix.storedIds⟩

/-- The solutions of a scan, or only the first `limit` of them. -/
def scan (ix : Index) (hitClass : HitClass) (limit : Option Nat := none) :
    Step Index (List Solution) :=
  let found := match limit with
    | some n => (ix.lazyScan hitClass).take ix.ledger n
    | none => (ix.lazyScan hitClass).drain ix.ledger
  ⟨found, ix, hitClass.emitting found.length⟩

end Index

end HashJoin
