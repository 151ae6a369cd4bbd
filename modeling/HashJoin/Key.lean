import HashJoin.Digest.Xxh3
import HashJoin.Key.Encoding

/-! Keys of an index: one slot for each join variable. A key carries the digest of its
slots, so that a hash map need not look at the terms again. Keys are ordered slot by
slot, and a key comes before its continuations. -/

namespace HashJoin

structure Key where
  slots : List Slot
  hash : UInt64 := Digest.Xxh3.digest ⟨(Encoding.slots slots).toArray⟩
  hash_eq : hash = Digest.Xxh3.digest ⟨(Encoding.slots slots).toArray⟩ := by rfl

namespace Key

def ofSlots (slots : List Slot) : Key := { slots }

/-- The key of every solution when there are no join variables. -/
def crossProduct : Key := ofSlots []

theorem ext {a b : Key} (h : a.slots = b.slots) : a = b := by
  obtain ⟨sa, ha, ea⟩ := a
  obtain ⟨sb, hb, eb⟩ := b
  cases h
  cases ea; cases eb
  rfl

/-- The digests are compared first, and the slots when those agree. -/
instance : BEq Key := ⟨fun a b => a.hash == b.hash && a.slots == b.slots⟩

theorem beq_iff_eq {a b : Key} : (a == b) = true ↔ a = b := by
  refine ⟨fun h => ext ?_, fun h => ?_⟩
  · exact eq_of_beq (Bool.and_eq_true _ _ ▸ h).2
  · subst h
    exact Bool.and_eq_true _ _ ▸ ⟨beq_self_eq_true a.hash, beq_self_eq_true a.slots⟩

instance : LawfulBEq Key where
  rfl := beq_iff_eq.2 rfl
  eq_of_beq := beq_iff_eq.1

instance : DecidableEq Key := fun a b =>
  if h : a == b then .isTrue (beq_iff_eq.1 h) else .isFalse fun e => h (beq_iff_eq.2 e)

instance : Hashable Key := ⟨Key.hash⟩

instance : Ord Key := ⟨fun a b => compare a.slots b.slots⟩

instance : Std.TransOrd Key where
  eq_swap {a b} := Std.OrientedOrd.eq_swap (a := a.slots) (b := b.slots)
  isLE_trans {_ _ _} h h' := Std.TransOrd.isLE_trans (α := List Slot) h h'

instance : Std.LawfulEqOrd Key where
  compare_self {a} := (Std.LawfulEqOrd.compare_eq_iff_eq.2 rfl : compare a.slots a.slots = .eq)
  eq_of_compare {_ _} h := ext (Std.LawfulEqOrd.eq_of_compare (α := List Slot) h)

def size (k : Key) : Nat := k.slots.length

/-- Whether every join variable was bound. -/
def isFullyBound (k : Key) : Bool := k.slots.all Option.isSome

def unboundCount (k : Key) : Nat := k.slots.countP Option.isNone

def slotText : Slot → String
  | none => "UNDEF"
  | some t => toString t

instance : ToString Key where
  toString k := "(" ++ ", ".intercalate (k.slots.map slotText) ++ ")"

def hashText (k : Key) : String := Digest.hexText k.hash

/-- The key together with its digest. -/
def debug (k : Key) : String := "Key(" ++ toString k ++ " #" ++ k.hashText ++ ")"

end Key

end HashJoin
