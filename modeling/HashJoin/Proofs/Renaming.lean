import HashJoin.Proofs.History

/-! Owners are names. An index looks at the owner of a handle only to compare it with its own,
and puts its own on all that it hands out. So if owners are renamed and different ones stay
different, an index answers what it would have answered, in the new names, and comes into the
state in which it would have come, under its new name. -/

namespace HashJoin

def Handle.renamed (ρ : Nat → Nat) (e : Handle) : Handle := { e with owner := ρ e.owner }

def Snapshot.renamed (ρ : Nat → Nat) (b : Snapshot) : Snapshot := { b with owner := ρ b.owner }

def IndexOp.renamed (ρ : Nat → Nat) : IndexOp → IndexOp
  | .mark e => .mark (e.renamed ρ)
  | .remove k e => .remove k (e.renamed ρ)
  | op => op

def Reply.renamed (ρ : Nat → Nat) : Reply → Reply
  | .entry stored => .entry (stored.map (Handle.renamed ρ))
  | .bucket found => .bucket (found.map (Snapshot.renamed ρ))
  | .buckets listed => .buckets (listed.map fun p => (p.1, p.2.renamed ρ))
  | reply => reply

namespace Index

def renamed (ρ : Nat → Nat) (ix : Index) : Index := { ix with owner := ρ ix.owner }

variable {ρ : Nat → Nat}

/-! ### Storing -/

theorem insertKeyed_renamed (ρ : Nat → Nat) (ix : Index) (s : Solution) (keying : Keying) :
    (ix.renamed ρ).insertKeyed s keying = (ix.insertKeyed s keying).map (renamed ρ) id := by
  cases keying <;> rfl

theorem insertNewKeyed_renamed (ρ : Nat → Nat) (ix : Index) (s : Solution) (keying : Keying) :
    (ix.renamed ρ).insertNewKeyed s keying = (ix.insertNewKeyed s keying).map (renamed ρ) id := by
  cases keying with
  | missing v => rfl
  | key k =>
    rw [insertNewKeyed, insertNewKeyed]
    change (if (ix.buckets.get? k).any (ix.holds · s) then _ else _) = _
    split <;> rfl

theorem foldl_addKeyed_renamed (ρ : Nat → Nat) (ix : Index) (n : Intake)
    (items : List (Keying × Solution)) : items.foldl addKeyed (ix.renamed ρ, n) =
      (items.foldl addKeyed (ix, n)).map (renamed ρ) id := by
  induction items generalizing ix n with
  | nil => rfl
  | cons item items ih =>
    obtain ⟨keying, s⟩ := item
    cases keying with
    | key k => exact ih (ix.append k s) _
    | missing v => exact ih ix _

theorem insertAllKeyed_renamed (ρ : Nat → Nat) (ix : Index) (items : List (Keying × Solution)) :
    (ix.renamed ρ).insertAllKeyed items = (ix.insertAllKeyed items).map (renamed ρ) id := by
  rw [insertAllKeyed, insertAllKeyed, foldl_addKeyed_renamed]
  rfl

/-! ### Looking up and marking -/

theorem lookup_renamed (ρ : Nat → Nat) (ix : Index) (k : Key) :
    (ix.renamed ρ).lookup k = (ix.lookup k).map (renamed ρ) id := rfl

theorem probeKeyed_renamed (ρ : Nat → Nat) (ix : Index) (keying : Keying) :
    (ix.renamed ρ).probeKeyed keying = (ix.probeKeyed keying).map (renamed ρ) id := by
  cases keying <;> rfl

theorem isLive_renamed (hρ : ρ.Injective) (ix : Index) (e : Handle) :
    (ix.renamed ρ).isLive (e.renamed ρ) = ix.isLive e := by
  rw [Bool.eq_iff_iff, isLive_iff, isLive_iff]
  exact and_congr_left' hρ.eq_iff

theorem mark_renamed (hρ : ρ.Injective) (ix : Index) (e : Handle) :
    (ix.renamed ρ).mark (e.renamed ρ) = (ix.mark e).map (renamed ρ) id := by
  rw [mark, mark, isLive_renamed hρ]
  split <;> rfl

theorem markAll_renamed (hρ : ρ.Injective) (ix : Index) (ids : List EntryId) :
    (ix.renamed ρ).markAll ids = (ix.markAll ids).map (renamed ρ) id :=
  Step.each_map_state (fun ix' id _ => mark_renamed hρ ix' (ix'.handle id)) ix

theorem joinBucket_renamed (hρ : ρ.Injective) (ix : Index) (op : Operator) (probe : Solution)
    (b : Option Bucket) :
    (ix.renamed ρ).joinBucket op probe b = (ix.joinBucket op probe b).map (renamed ρ) id := by
  cases b with
  | none => rfl
  | some bucket =>
    rw [joinBucket, joinBucket, markAll_renamed hρ]
    rfl

theorem join_renamed (hρ : ρ.Injective) (ix : Index) (op : Operator) (probe : Solution) :
    (ix.renamed ρ).join op probe = (ix.join op probe).map (renamed ρ) id := by
  change ((ix.renamed ρ).probeKeyed (ix.keying probe)).andThen _ = _
  rw [probeKeyed_renamed, Step.andThen]
  -- the bucket found has no owner; that it is the same leaves only the marks to be renamed
  simp only [Step.map_answer, Step.map_state, joinBucket_renamed hρ]
  rfl

/-! ### Operations -/

theorem perform_renamed (hρ : ρ.Injective) (ix : Index) (op : IndexOp) :
    (ix.renamed ρ).perform (op.renamed ρ) = (ix.perform op).map (renamed ρ) (Reply.renamed ρ) := by
  cases op with
  | insert s =>
    change (ix.renamed ρ).perform (.insert s) = _
    rw [perform, perform, insert, insertKeyed_renamed]
    -- a handle made by the renamed index is the renamed handle
    simp only [Step.map, Reply.renamed, Option.map_map]
    rfl
  | insertAll solutions =>
    change (ix.renamed ρ).perform (.insertAll solutions) = _
    rw [perform, perform, insertAll, insertAllKeyed_renamed]
    rfl
  | insertNew s =>
    change (ix.renamed ρ).perform (.insertNew s) = _
    rw [perform, perform, insertNew, insertNewKeyed_renamed]
    rfl
  | lookup k =>
    change (ix.renamed ρ).perform (.lookup k) = _
    rw [perform, perform, lookup_renamed]
    simp only [Step.map, Reply.renamed, Option.map_map]
    rfl
  | probe s =>
    change (ix.renamed ρ).perform (.probe s) = _
    rw [perform, perform, probe, probeKeyed_renamed]
    simp only [Step.map, Reply.renamed, Option.map_map]
    rfl
  | mark e =>
    change (ix.renamed ρ).perform (.mark (e.renamed ρ)) = _
    rw [perform, perform, mark_renamed hρ]
    rfl
  | join op probe =>
    change (ix.renamed ρ).perform (.join op probe) = _
    rw [perform, perform, join_renamed hρ]
    rfl
  | buckets =>
    change (ix.renamed ρ).perform .buckets = _
    rw [perform, perform]
    simp only [Step.map, Reply.renamed, List.map_map]
    rfl
  | keying s | clearHits | scan c limit | summary | config | unshare | remove k e
    | removeBucket k | consume op probe => rfl

/-- The operations one after the other, with their replies. -/
def run (ix : Index) (ops : List IndexOp) : Step Index (List Reply) := Step.each perform ix ops

theorem run_renamed (hρ : ρ.Injective) (ix : Index) (ops : List IndexOp) :
    (ix.renamed ρ).run (ops.map (IndexOp.renamed ρ)) =
      (ix.run ops).map (renamed ρ) (List.map (Reply.renamed ρ)) :=
  Step.each_map (fun ix op _ => ix.perform_renamed hρ op) ix

end Index

end HashJoin
