import HashJoin.Buckets.Order
import Mathlib.Data.List.Induction

/-! One contract for all maps of buckets. What a map holds under a key goes by what was done to
that key: a bucket is there since the step that last had to create one, unless the key was erased
after that. So maps of different kinds answer alike and are of one size all along, and each lists
the keys that it holds, every one of them once. Only the order is left to the kind: a map by
arrival lists its keys by the steps that created them, and one by key in rising order. -/

namespace HashJoin

namespace Buckets

/-- What is done to a map. Whoever is given a bucket in order to change it does so. -/
inductive Op where
  | ensure (k : Key) (change : Bucket → Bucket)
  | get (k : Key)
  | modify (k : Key) (change : Bucket → Bucket)
  | erase (k : Key)

namespace Op

def apply (m : Buckets) : Op → Buckets
  | ensure k change => (m.ensure k).modify k change
  | get _ => m
  | modify k change => m.modify k change
  | erase k => m.erase k

/-- The bucket that is given, as it is then. -/
def answer (m : Buckets) : Op → Option Bucket
  | ensure k _ => (m.ensure k).get? k
  | get k | modify k _ | erase k => m.get? k

end Op

def run (m : Buckets) (ops : List Op) : Buckets := ops.foldl Op.apply m

theorem run_concat (m : Buckets) (ops : List Op) (op : Op) :
    m.run (ops ++ [op]) = op.apply (m.run ops) := List.foldl_concat ..

/-- What each operation gives, and the size of the map after it. -/
def replies (m : Buckets) : List Op → List (Option Bucket × Nat)
  | [] => []
  | op :: ops => (op.answer m, (op.apply m).size) :: replies (op.apply m) ops

/-! ### Histories -/

/-- A bucket and the step that created it. -/
structure Holding where
  since : Nat
  bucket : Bucket

/-- What is held under `k` after the step with the number `n`, given what was before it. -/
def Op.hold (k : Key) (before : Option Holding) (n : Nat) : Op → Option Holding
  | ensure k' change =>
    if k' = k then
      let h := before.getD ⟨n, []⟩
      some { h with bucket := change h.bucket }
    else before
  | get _ => before
  | modify k' change =>
    if k' = k then before.map fun h => { h with bucket := change h.bucket } else before
  | erase k' => if k' = k then none else before

/-- What is held under `k` after some operations on a map that was empty. -/
def held (ops : List Op) (k : Key) : Option Holding :=
  ops.zipIdx.foldl (fun before step => step.1.hold k before step.2) none

/-- Both keys are held, and the first one was created earlier. -/
def Earlier (ops : List Op) (k k' : Key) : Prop :=
  ∃ h h', held ops k = some h ∧ held ops k' = some h' ∧ h.since < h'.since

theorem held_concat (ops : List Op) (op : Op) (k : Key) :
    held (ops ++ [op]) k = op.hold k (held ops k) ops.length := by
  rw [held, List.zipIdx_append, List.foldl_append, Nat.zero_add]
  rfl

/-- What is held was held before, or it was created by this step. -/
theorem Op.hold_cases {op : Op} {k : Key} {before : Option Holding} {n : Nat} {h : Holding}
    (hh : op.hold k before n = some h) :
    h.since = n ∨ ∃ h', before = some h' ∧ h.since = h'.since := by
  cases op with
  | get k' => exact .inr ⟨h, hh, rfl⟩
  | ensure k' change =>
    rw [hold] at hh
    split at hh
    · obtain rfl := Option.some.inj hh
      cases before with
      | none => exact .inl rfl
      | some h' => exact .inr ⟨h', rfl, rfl⟩
    · exact .inr ⟨h, hh, rfl⟩
  | modify k' change =>
    rw [hold] at hh
    split at hh
    · obtain ⟨h', hb, rfl⟩ := Option.map_eq_some_iff.1 hh
      exact .inr ⟨h', hb, rfl⟩
    · exact .inr ⟨h, hh, rfl⟩
  | erase k' =>
    rw [hold] at hh
    split at hh
    · contradiction
    · exact .inr ⟨h, hh, rfl⟩

/-- Nothing is held since a step that has not come yet. -/
theorem since_lt {ops : List Op} {k : Key} {h : Holding} (hk : held ops k = some h) :
    h.since < ops.length := by
  induction ops using List.reverseRecOn generalizing h with
  | nil => contradiction
  | append_singleton ops op ih =>
    rw [held_concat] at hk
    rw [List.length_append, List.length_singleton]
    rcases Op.hold_cases hk with hs | ⟨h', hb, hs⟩
    · omega
    · have := ih hb
      omega

/-- A key that is not erased keeps the step that created it. -/
theorem Op.hold_since {op : Op} {k : Key} {h : Holding} (hop : op ≠ .erase k) (n : Nat) :
    ∃ h', op.hold k (some h) n = some h' ∧ h'.since = h.since := by
  cases op with
  | get k' => exact ⟨h, rfl, rfl⟩
  | ensure k' change | modify k' change =>
    rw [hold]
    split
    · exact ⟨_, rfl, rfl⟩
    · exact ⟨h, rfl, rfl⟩
  | erase k' =>
    have hne : k' ≠ k := fun e => hop (congrArg erase e)
    rw [hold, if_neg hne]
    exact ⟨h, rfl, rfl⟩

theorem Earlier.concat {ops : List Op} {op : Op} {k k' : Key} (h : Earlier ops k k')
    (hk : op ≠ .erase k) (hk' : op ≠ .erase k') : Earlier (ops ++ [op]) k k' := by
  obtain ⟨h₁, h₂, held₁, held₂, hlt⟩ := h
  obtain ⟨g₁, hg₁, hs₁⟩ := Op.hold_since (h := h₁) hk ops.length
  obtain ⟨g₂, hg₂, hs₂⟩ := Op.hold_since (h := h₂) hk' ops.length
  refine ⟨g₁, g₂, ?_, ?_, hs₁ ▸ hs₂ ▸ hlt⟩
  · rw [held_concat, held₁, hg₁]
  · rw [held_concat, held₂, hg₂]

/-- A key that has to be created comes after all that are held. -/
theorem Earlier.created {ops : List Op} {k k' : Key} {h : Holding} (hk : held ops k = some h)
    (hnew : held ops k' = none) (change : Bucket → Bucket) :
    Earlier (ops ++ [.ensure k' change]) k k' := by
  have hkeep : Op.ensure k' change ≠ .erase k := nofun
  obtain ⟨g, hg, hs⟩ := Op.hold_since (h := h) hkeep ops.length
  refine ⟨g, ⟨ops.length, change []⟩, ?_, ?_, hs ▸ since_lt hk⟩
  · rw [held_concat, hk, hg]
  · rw [held_concat, hnew, Op.hold, if_pos rfl]
    rfl

/-! ### Maps and histories -/

theorem kind_run (m : Buckets) (ops : List Op) : (m.run ops).kind = m.kind := by
  induction ops using List.reverseRecOn with
  | nil => rfl
  | append_singleton ops op ih =>
    rw [run_concat, ← ih]
    cases op <;> simp [Op.apply]

/-- A map that holds what a history says does so after the next step. -/
theorem get?_apply {m : Buckets} {k : Key} {before : Option Holding}
    (h : m.get? k = before.map Holding.bucket) (op : Op) (n : Nat) :
    (op.apply m).get? k = (op.hold k before n).map Holding.bucket := by
  cases op with
  | get k' => exact h
  | ensure k' change =>
    rw [Op.apply, get?_modify, get?_ensure, get?_ensure, Op.hold]
    by_cases e : k' = k
    · subst e
      rw [if_pos rfl, if_pos rfl, if_pos rfl, h]
      cases before <;> rfl
    · rw [if_neg (Ne.symm e), if_neg (Ne.symm e), if_neg e, h]
  | modify k' change =>
    rw [Op.apply, get?_modify, Op.hold]
    by_cases e : k' = k
    · subst e
      rw [if_pos rfl, if_pos rfl, h]
      cases before <;> rfl
    · rw [if_neg (Ne.symm e), if_neg e, h]
  | erase k' =>
    rw [Op.apply, get?_erase, Op.hold]
    by_cases e : k' = k
    · rw [if_pos e.symm, if_pos e]
      rfl
    · rw [if_neg (Ne.symm e), if_neg e, h]

/-- A map holds what its history says. -/
theorem get?_run (kind : Kind) (ops : List Op) (k : Key) :
    ((empty kind).run ops).get? k = (held ops k).map Holding.bucket := by
  induction ops using List.reverseRecOn with
  | nil => exact get?_empty kind k
  | append_singleton ops op ih =>
    rw [run_concat, held_concat]
    exact get?_apply ih op ops.length

/-! ### Keys in the order of the map -/

/-- The keys in the order in which the map lists their buckets. -/
def keys (m : Buckets) : List Key := m.toList.map Prod.fst

theorem mem_keys_iff {m : Buckets} {k : Key} : k ∈ m.keys ↔ (m.get? k).isSome = true := by
  rw [keys, List.mem_map, Option.isSome_iff_exists]
  constructor
  · rintro ⟨⟨k', b⟩, hp, rfl⟩
    exact ⟨b, mem_toList_iff.1 hp⟩
  · rintro ⟨b, hb⟩
    exact ⟨(k, b), mem_toList_iff.2 hb, rfl⟩

theorem keys_modify (m : Buckets) (k : Key) (change : Bucket → Bucket) :
    (m.modify k change).keys = m.keys := by
  rw [keys, keys, toList_modify, List.map_map]
  refine List.map_congr_left fun p _ => ?_
  rw [Function.comp]
  split <;> rfl

theorem keys_erase (m : Buckets) (k : Key) : (m.erase k).keys = m.keys.filter (· ≠ k) := by
  rw [keys, keys, toList_erase, List.filter_map]
  rfl

/-- Only a key that is new to a map by arrival gets a place, and that is the last one. -/
theorem keys_ensure {m : Buckets} (h : m.kind = .arrival) (k : Key) :
    (m.ensure k).keys = if k ∈ m.keys then m.keys else m.keys ++ [k] := by
  cases m with
  | arrival m =>
    change (m.ensure k).pairs.map Prod.fst =
      if k ∈ m.pairs.map Prod.fst then m.pairs.map Prod.fst else m.pairs.map Prod.fst ++ [k]
    rw [ArrivalMap.ensure]
    split
    · rfl
    · exact List.map_append
  | hashed m | ordered m => contradiction

theorem mem_keys_run {kind : Kind} {ops : List Op} {k : Key} :
    k ∈ ((empty kind).run ops).keys ↔ ∃ h, held ops k = some h := by
  rw [mem_keys_iff, get?_run, Option.isSome_map, Option.isSome_iff_exists]

/-- A map by arrival lists its keys by the steps that created them. -/
theorem pairwise_earlier (ops : List Op) :
    ((empty .arrival).run ops).keys.Pairwise (Earlier ops) := by
  induction ops using List.reverseRecOn with
  | nil => exact List.Pairwise.nil
  | append_singleton ops op ih =>
    have hkind : ((empty .arrival).run ops).kind = .arrival := kind_run _ ops
    rw [run_concat]
    cases op with
    | get k => exact ih.imp fun h => h.concat nofun nofun
    | modify k change =>
      rw [Op.apply, keys_modify]
      exact ih.imp fun h => h.concat nofun nofun
    | erase k =>
      rw [Op.apply, keys_erase]
      have hne : ∀ k' ∈ ((empty .arrival).run ops).keys.filter (· ≠ k), Op.erase k ≠ .erase k' := by
        intro k' hk' e
        have := (List.mem_filter.1 hk').2
        simp [Op.erase.inj e] at this
      exact (List.Pairwise.filter _ ih).imp_of_mem fun h₁ h₂ h => h.concat (hne _ h₁) (hne _ h₂)
    | ensure k change =>
      have hold : ((empty .arrival).run ops).keys.Pairwise
        (Earlier (ops ++ [.ensure k change])) := ih.imp fun h => h.concat nofun nofun
      rw [Op.apply, keys_modify, keys_ensure hkind]
      split
      next => exact hold
      next hnew =>
        refine List.pairwise_append.2 ⟨hold, List.pairwise_singleton .., fun k' hk' l hl => ?_⟩
        obtain rfl := List.mem_singleton.1 hl
        obtain ⟨h', hheld⟩ := mem_keys_run.1 hk'
        have hnone : held ops l = none := by
          rw [← Option.not_isSome_iff_eq_none, Option.isSome_iff_exists]
          exact fun hex => hnew (mem_keys_run.2 hex)
        exact .created hheld hnone change

/-! ### The contract -/

theorem get?_apply_congr {m m' : Buckets} (h : ∀ k, m.get? k = m'.get? k) (op : Op) (k : Key) :
    (op.apply m).get? k = (op.apply m').get? k := by
  cases op with
  | get k' => exact h k
  | ensure k' change => simp only [Op.apply, get?_modify, get?_ensure, h]
  | modify k' change => simp only [Op.apply, get?_modify, h]
  | erase k' => simp only [Op.apply, get?_erase, h]

theorem answer_congr {m m' : Buckets} (h : ∀ k, m.get? k = m'.get? k) (op : Op) :
    op.answer m = op.answer m' := by
  cases op with
  | ensure k change => rw [Op.answer, Op.answer, get?_ensure, get?_ensure, h]
  | get k | modify k change | erase k => exact h k

/-- Maps that look-ups cannot tell apart cannot be told apart later, whatever is done to both. -/
theorem replies_congr {m m' : Buckets} (h : ∀ k, m.get? k = m'.get? k) (ops : List Op) :
    m.replies ops = m'.replies ops := by
  induction ops generalizing m m' with
  | nil => rfl
  | cons op ops ih =>
    have hnext := get?_apply_congr h op
    rw [replies, replies, answer_congr h, size_congr hnext, ih hnext]

/-- The maps obey one contract. Whatever is done to maps that are empty, they give the same
buckets and are of one size after every step. A map then holds under each key what its history
says, and lists just what it holds, every key once. A map by key lists the keys in strictly
rising order, and a map by arrival in the order of the steps that last created them. -/
theorem run_contract (ops : List Op) :
    (∀ kind kind', (empty kind).replies ops = (empty kind').replies ops) ∧
    (∀ kind, let m := (empty kind).run ops
      (∀ k, m.get? k = (held ops k).map Holding.bucket) ∧ m.size = m.toList.length ∧
      m.keys.Nodup ∧
      ∀ k b, (k, b) ∈ m.toList ↔ ∃ h, held ops k = some h ∧ h.bucket = b) ∧
    ((empty .ordered).run ops).keys.Pairwise (fun k k' => compare k k' = .lt) ∧
    ((empty .arrival).run ops).keys.Pairwise (Earlier ops) := by
  refine ⟨fun kind kind' => replies_congr (fun k => ?_) ops, fun kind => ?_, ?_,
    pairwise_earlier ops⟩
  · rw [get?_empty, get?_empty]
  · refine ⟨get?_run kind ops, (length_toList _).symm, nodup_toList _, fun k b => ?_⟩
    rw [mem_toList_iff, get?_run, Option.map_eq_some_iff]
  · have hkind : ((empty .ordered).run ops).kind ≠ .arrival := by
      rw [kind_run]
      exact nofun
    exact List.pairwise_map.2 (rising_toList hkind)

/-- An erased key comes back at the end, and one that is there keeps its place. -/
example :
    let k : Int64 → Key := fun n => .ofSlots [some (.integer n)]
    let created := [3, 1, 4, 2].map fun n => Op.ensure (k n) id
    ((empty .arrival).run (created ++ [.erase (k 1), .ensure (k 3) id, .ensure (k 1) id])).keys =
      [k 3, k 4, k 2, k 1] := by
  decide +kernel

end Buckets

end HashJoin
