/-! What is counted while indices are at work. Every operation says by how much it raises
the counters, and the increases of operations done one after the other add up. -/

namespace HashJoin

@[ext] structure Counters where
  /-- Solutions stored. -/
  inserts : Nat := 0
  /-- Solutions turned away because a join variable was unbound. -/
  rejected : Nat := 0
  /-- Buckets looked up. -/
  probes : Nat := 0
  /-- Matches counted on entries. -/
  hits : Nat := 0
  /-- Entries removed. -/
  removals : Nat := 0
  /-- Buckets dropped with their last entry. -/
  bucketsDropped : Nat := 0
  /-- Solutions given out by scans for unmatched entries. -/
  unmatchedEmitted : Nat := 0
  deriving DecidableEq

namespace Counters

instance : Zero Counters := ⟨{}⟩

instance : Add Counters where
  add a b := {
    inserts := a.inserts + b.inserts
    rejected := a.rejected + b.rejected
    probes := a.probes + b.probes
    hits := a.hits + b.hits
    removals := a.removals + b.removals
    bucketsDropped := a.bucketsDropped + b.bucketsDropped
    unmatchedEmitted := a.unmatchedEmitted + b.unmatchedEmitted }

@[simp] theorem zero_inserts : (0 : Counters).inserts = 0 := rfl
@[simp] theorem zero_rejected : (0 : Counters).rejected = 0 := rfl
@[simp] theorem zero_probes : (0 : Counters).probes = 0 := rfl
@[simp] theorem zero_hits : (0 : Counters).hits = 0 := rfl
@[simp] theorem zero_removals : (0 : Counters).removals = 0 := rfl
@[simp] theorem zero_bucketsDropped : (0 : Counters).bucketsDropped = 0 := rfl
@[simp] theorem zero_unmatchedEmitted : (0 : Counters).unmatchedEmitted = 0 := rfl

variable (a b c : Counters)

@[simp] theorem add_inserts : (a + b).inserts = a.inserts + b.inserts := rfl
@[simp] theorem add_rejected : (a + b).rejected = a.rejected + b.rejected := rfl
@[simp] theorem add_probes : (a + b).probes = a.probes + b.probes := rfl
@[simp] theorem add_hits : (a + b).hits = a.hits + b.hits := rfl
@[simp] theorem add_removals : (a + b).removals = a.removals + b.removals := rfl
@[simp] theorem add_bucketsDropped :
    (a + b).bucketsDropped = a.bucketsDropped + b.bucketsDropped := rfl
@[simp] theorem add_unmatchedEmitted :
    (a + b).unmatchedEmitted = a.unmatchedEmitted + b.unmatchedEmitted := rfl

@[simp] theorem add_zero : a + 0 = a := rfl

@[simp] theorem zero_add : 0 + a = a := by ext <;> simp

theorem add_assoc : a + b + c = a + (b + c) := by ext <;> simp [Nat.add_assoc]

/-- The counters in the order in which they are declared. -/
def toList (a : Counters) : List Nat :=
  [a.inserts, a.rejected, a.probes, a.hits, a.removals, a.bucketsDropped, a.unmatchedEmitted]

end Counters

end HashJoin
