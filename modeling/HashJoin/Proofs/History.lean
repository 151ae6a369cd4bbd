import HashJoin.Buckets.Order
import HashJoin.Proofs.Log.Refinement

/-! What no operation can change. An index keeps its owner, its configuration and the kind
of its map. An entry keeps its place in the ledger and its solution, and once it has been
removed nothing touches it any more: it is not counted, not cleared and never live again. -/

namespace HashJoin

namespace Ledger

/-- A later ledger has the entries of an earlier one at their places and with their
solutions, and those that had been removed as they were. -/
def Precedes (before after : Ledger) : Prop :=
  ∀ (id : EntryId) (e : Entry), before[id]? = some e →
    ∃ e', after[id]? = some e' ∧ e'.solution = e.solution ∧ (e.live = false → e' = e)

variable {before after : Ledger}

theorem Precedes.refl (ledger : Ledger) : ledger.Precedes ledger :=
  fun _ e he => ⟨e, he, rfl, fun _ => rfl⟩

theorem Precedes.trans {later : Ledger} (h : before.Precedes after) (h' : after.Precedes later) :
    before.Precedes later := by
  intro id e he
  obtain ⟨e₁, he₁, hs₁, hd₁⟩ := h id e he
  obtain ⟨e₂, he₂, hs₂, hd₂⟩ := h' id e₁ he₁
  refine ⟨e₂, he₂, hs₂.trans hs₁, fun hdead => ?_⟩
  rw [hd₂ (hd₁ hdead ▸ hdead), hd₁ hdead]

theorem Precedes.size_le (h : before.Precedes after) : before.size ≤ after.size := by
  rw [← Nat.not_lt]
  intro hlt
  obtain ⟨e', he', -⟩ := h after.size _ (Array.getElem?_eq_getElem hlt)
  rw [Array.getElem?_eq_none (Nat.le_refl _)] at he'
  contradiction

/-- An entry that is not live stays so. -/
theorem Precedes.live_of_live (h : before.Precedes after) {id : EntryId} (hid : id < before.size)
    (hl : after[id]?.any Entry.live = true) : before[id]?.any Entry.live = true := by
  have he := Array.getElem?_eq_getElem hid
  obtain ⟨e', he', -, hdead⟩ := h id _ he
  rw [he', Option.any_some] at hl
  rw [he, Option.any_some]
  cases hl' : before[id].live with
  | true => rfl
  | false => rw [hdead hl', hl'] at hl; contradiction

theorem precedes_push (ledger : Ledger) (e : Entry) : ledger.Precedes (ledger.push e) := by
  intro id e' he
  obtain ⟨hid, -⟩ := Array.getElem?_eq_some_iff.1 he
  refine ⟨e', ?_, rfl, fun _ => rfl⟩
  rw [Array.getElem?_push_lt hid, ← Array.getElem?_eq_getElem, he]

/-- From `before` to `after` the entries of `ids`, all of them live, change by `f`, and no
other entry changes. -/
structure Changes (f : Entry → Entry) (ids : List EntryId) (before after : Ledger) : Prop where
  live : ∀ id ∈ ids, before[id]?.any Entry.live = true
  entry : ∀ id, after[id]? = if id ∈ ids then before[id]?.map f else before[id]?

theorem changes_nil (f : Entry → Entry) (ledger : Ledger) : Changes f [] ledger ledger :=
  ⟨fun _ hid => absurd hid List.not_mem_nil, fun _ => rfl⟩

theorem changes_modify (f : Entry → Entry) {ledger : Ledger} {id : EntryId}
    (h : ledger[id]?.any Entry.live = true) : Changes f [id] ledger (ledger.modify id f) where
  live id' hid := by rwa [List.mem_singleton.1 hid]
  entry id' := by
    rw [Array.getElem?_modify]
    simp only [List.mem_singleton, eq_comm]

/-- A changed entry was live, and reads as the change says. -/
theorem Changes.entry_of_mem {f : Entry → Entry} {ids : List EntryId}
    (h : Changes f ids before after) {id : EntryId} (hid : id ∈ ids) :
    ∃ e, before[id]? = some e ∧ e.live = true ∧ after[id]? = some (f e) := by
  obtain ⟨e, he, hl⟩ := (Option.any_eq_true _ _).1 (h.live id hid)
  refine ⟨e, he, hl, ?_⟩
  rw [h.entry, if_pos hid, he, Option.map_some]

/-- Live entries may change in any way that leaves their solutions alone. -/
theorem Changes.precedes {f : Entry → Entry} {ids : List EntryId} (h : Changes f ids before after)
    (hf : ∀ e, (f e).solution = e.solution) : before.Precedes after := by
  intro id e he
  rw [h.entry, he]
  split
  next hid =>
    have hl := h.live id hid
    rw [he, Option.any_some] at hl
    refine ⟨f e, rfl, hf e, fun hdead => ?_⟩
    rw [hl] at hdead
    contradiction
  next => exact ⟨e, rfl, rfl, fun _ => rfl⟩

end Ledger

namespace Index

/-- By operations the one index can become the other. -/
structure Becomes (ix ix' : Index) : Prop where
  owner : ix'.owner = ix.owner
  config : ix'.config = ix.config
  kind : ix'.buckets.kind = ix.buckets.kind
  ledger : ix.ledger.Precedes ix'.ledger

variable {ix : Index}

theorem Becomes.refl (ix : Index) : ix.Becomes ix := ⟨rfl, rfl, rfl, .refl _⟩

theorem Becomes.trans {ix' ix'' : Index} (h : ix.Becomes ix') (h' : ix'.Becomes ix'') :
    ix.Becomes ix'' :=
  ⟨h'.owner.trans h.owner, h'.config.trans h.config, h'.kind.trans h.kind, h.ledger.trans h'.ledger⟩

/-! ### Storing -/

section Appending

variable {P : Index → Prop}
  (happend : ∀ {ix : Index}, P ix → ∀ (k : Key) (s : Solution), P (ix.append k s))
include happend

/-! What is kept when one solution is stored is kept by every operation that stores. -/

theorem insertKeyed_keeps (h : P ix) (s : Solution) (keying : Keying) :
    P (ix.insertKeyed s keying).state := by
  cases keying with
  | key k => exact happend h k s
  | missing v => exact h

theorem insertNewKeyed_keeps (h : P ix) (s : Solution) (keying : Keying) :
    P (ix.insertNewKeyed s keying).state := by
  cases keying with
  | key k =>
    rw [insertNewKeyed]
    split
    · exact h
    · exact happend h k s
  | missing v => exact h

theorem foldl_addKeyed_keeps (h : P ix) (n : Intake) (items : List (Keying × Solution)) :
    P (items.foldl addKeyed (ix, n)).1 := by
  induction items generalizing ix n with
  | nil => exact h
  | cons item items ih =>
    obtain ⟨keying, s⟩ := item
    rw [List.foldl_cons]
    cases keying with
    | key k => exact ih (happend h k s) _
    | missing v => exact ih h _

end Appending

theorem Becomes.append {ix' : Index} (h : ix.Becomes ix') (k : Key) (s : Solution) :
    ix.Becomes (ix'.append k s) where
  owner := h.owner
  config := h.config
  kind := by rw [Index.append, Buckets.kind_modify, Buckets.kind_ensure, h.kind]
  ledger := h.ledger.trans (Ledger.precedes_push _ _)

/-! ### Marking -/

theorem entry?_handle (ix : Index) (id : EntryId) : ix.entry? (ix.handle id) = ix.ledger[id]? :=
  if_pos rfl

theorem isLive_handle (ix : Index) (id : EntryId) :
    ix.isLive (ix.handle id) = ix.ledger[id]?.any Entry.live := by
  rw [isLive, entry?_handle]

theorem changes_mark (ix : Index) (e : Handle) : ix.ledger.Changes Entry.hit
    (if (ix.mark e).answer then [e.id] else []) (ix.mark e).state.ledger := by
  rw [mark]
  split
  next hlive => exact Ledger.changes_modify Entry.hit ((ix.isLive_iff e).1 hlive).2
  next => exact Ledger.changes_nil _ _

theorem becomes_mark (ix : Index) (e : Handle) : ix.Becomes (ix.mark e).state := by
  refine ⟨?_, ?_, ?_, (ix.changes_mark e).precedes fun _ => rfl⟩
  all_goals
    rw [mark]
    split <;> rfl

theorem becomes_markAll (ix : Index) (ids : List EntryId) : ix.Becomes (ix.markAll ids).state :=
  Step.each_keeps (P := ix.Becomes) (fun ix' _ h => h.trans (ix'.becomes_mark _)) (.refl ix) ids

theorem becomes_joinBucket (ix : Index) (op : Operator) (probe : Solution) (b : Option Bucket) :
    ix.Becomes (ix.joinBucket op probe b).state := by
  cases b with
  | none => exact .refl ix
  | some b => exact ix.becomes_markAll _

/-- Of a coherent index the map holds live entries only. -/
theorem Coherent.any_live (h : ix.Coherent) {id : EntryId} :
    ix.ledger[id]?.any Entry.live = true ↔ id ∈ ix.storedIds := by
  rw [Ledger.any_live_eq, h.storedIds_perm.mem_iff, List.any_eq_true, List.mem_map]
  simp only [decide_eq_true_iff]
  rfl

theorem Coherent.markAll (h : ix.Coherent) (ids : List EntryId) :
    (ix.markAll ids).state.Coherent :=
  Step.each_keeps (fun _ _ hc => (hc.follows.mark _).1.coherent) h ids

theorem Coherent.changes_clearHits (h : ix.Coherent) :
    ix.ledger.Changes Entry.clear ix.storedIds ix.clearHits.state.ledger where
  live _ := h.any_live.2
  entry := Ledger.getElem?_foldl_modify (f := Entry.clear) (fun _ => rfl) ix.storedIds ix.ledger

theorem Coherent.becomes_clearHits (h : ix.Coherent) : ix.Becomes ix.clearHits.state :=
  ⟨rfl, rfl, rfl, h.changes_clearHits.precedes fun _ => rfl⟩

/-! ### Removing -/

theorem mem_storedIds {k : Key} {bucket : Bucket} (hb : ix.buckets.get? k = some bucket)
    {id : EntryId} (hid : id ∈ bucket) : id ∈ ix.storedIds :=
  List.mem_flatMap.2 ⟨(k, bucket), Buckets.mem_toList_iff.2 hb, hid⟩

theorem Coherent.changes_remove (h : ix.Coherent) (k : Key) (e : Handle) :
    ix.ledger.Changes Entry.retire (if (ix.remove k e).answer then [e.id] else [])
      (ix.remove k e).state.ledger := by
  rw [remove]
  cases hb : ix.buckets.get? k with
  | none => exact Ledger.changes_nil _ _
  | some bucket =>
    dsimp only
    split
    next ho => exact Ledger.changes_modify Entry.retire (h.any_live.2 (mem_storedIds hb ho.2))
    next => exact Ledger.changes_nil _ _

theorem Coherent.becomes_remove (h : ix.Coherent) (k : Key) (e : Handle) :
    ix.Becomes (ix.remove k e).state := by
  have hledger := (h.changes_remove k e).precedes fun _ => rfl
  rw [remove] at hledger ⊢
  cases hb : ix.buckets.get? k with
  | none => exact .refl ix
  | some bucket =>
    rw [hb] at hledger
    dsimp only at hledger ⊢
    split
    next ho =>
      rw [if_pos ho] at hledger
      refine ⟨rfl, rfl, ?_, hledger⟩
      dsimp only
      split
      · exact ix.buckets.kind_erase k
      · exact ix.buckets.kind_modify k _
    next => exact .refl ix

theorem Coherent.becomes_removeAll (h : ix.Coherent) (k : Key) (ids : List EntryId) :
    ix.Becomes (ix.removeAll k ids).state :=
  (Step.each_keeps (P := fun ix' => ix'.Coherent ∧ ix.Becomes ix')
    (fun _ _ ⟨hc, hb⟩ => ⟨(hc.follows.remove k _).1.coherent, hb.trans (hc.becomes_remove k _)⟩)
    ⟨h, .refl ix⟩ ids).2

theorem Coherent.changes_removeBucket (h : ix.Coherent) (k : Key) :
    ix.ledger.Changes Entry.retire ((ix.removeBucket k).answer.getD [])
      (ix.removeBucket k).state.ledger := by
  rw [removeBucket]
  cases hb : ix.buckets.get? k with
  | none => exact Ledger.changes_nil _ _
  | some bucket =>
    exact ⟨fun _ hid => h.any_live.2 (mem_storedIds hb hid),
      Ledger.getElem?_foldl_modify (f := Entry.retire) (fun _ => rfl) bucket ix.ledger⟩

theorem Coherent.becomes_removeBucket (h : ix.Coherent) (k : Key) :
    ix.Becomes (ix.removeBucket k).state := by
  have hledger := (h.changes_removeBucket k).precedes fun _ => rfl
  rw [removeBucket] at hledger ⊢
  cases hb : ix.buckets.get? k with
  | none => exact .refl ix
  | some bucket =>
    rw [hb] at hledger
    exact ⟨rfl, rfl, ix.buckets.kind_erase k, hledger⟩

theorem Coherent.becomes_consumeKeyed (h : ix.Coherent) (op : Operator) (probe : Solution)
    (keying : Keying) : ix.Becomes (ix.consumeKeyed op probe keying).state := by
  cases keying with
  | missing v => exact .refl ix
  | key k =>
    change ix.Becomes (ix.consumeBucket op probe k (ix.buckets.get? k)).state
    rw [consumeBucket_state]
    exact (ix.becomes_markAll _).trans ((h.markAll _).becomes_removeAll k _)

/-! ### Operations -/

theorem Coherent.becomes_perform (h : ix.Coherent) (op : IndexOp) :
    ix.Becomes (ix.perform op).state := by
  cases op with
  | insert s => exact insertKeyed_keeps Becomes.append (.refl ix) s _
  | insertAll solutions => exact foldl_addKeyed_keeps Becomes.append (.refl ix) {} _
  | insertNew s => exact insertNewKeyed_keeps Becomes.append (.refl ix) s _
  | mark e => exact ix.becomes_mark e
  | clearHits => exact h.becomes_clearHits
  | probe s =>
    change ix.Becomes (ix.probe s).state
    rw [probe_state]
    exact .refl ix
  | join op probe =>
    change ix.Becomes ((ix.probe probe).state.joinBucket op probe _).state
    rw [probe_state]
    exact ix.becomes_joinBucket op probe _
  | keying s | lookup k | scan c limit | summary | config | unshare | buckets | remove k e
    | removeBucket k | consume op probe => exact .refl ix

end Index

namespace SharedIndex

variable {ix : SharedIndex}

/-- The index inside is coherent, and keys are formed under its configuration. -/
def Coherent (ix : SharedIndex) : Prop := ix.Follows ix.core.log

theorem Follows.coherent {l : Log} (h : ix.Follows l) : ix.Coherent :=
  ⟨h.core.coherent.follows, h.config_eq⟩

theorem Coherent.perform (h : ix.Coherent) (op : IndexOp) : (ix.perform op).state.Coherent := by
  by_cases hop : op = .unshare
  · subst hop
    exact h
  · exact (Follows.perform h hop).1.coherent

theorem Coherent.becomes_perform (h : ix.Coherent) (op : IndexOp) :
    ix.core.Becomes (ix.perform op).state.core := by
  have hc := h.core.coherent
  rw [h.eq_ofIndex]
  generalize ix.core = core at hc
  have hboth := hc.becomes_perform op
  cases op with
  | remove k e => exact hc.becomes_remove k e
  | removeBucket k => exact hc.becomes_removeBucket k
  | consume op probe => exact hc.becomes_consumeKeyed op probe _
  | insert s | insertAll solutions | insertNew s | keying s | lookup k | probe s | mark e | clearHits
    | scan c limit | summary | config | join op probe | unshare | buckets => exact hboth

/-- The operations one after the other, with their replies. -/
def run (ix : SharedIndex) (ops : List IndexOp) : Step SharedIndex (List Reply) :=
  Step.each perform ix ops

theorem run_cons_state (ix : SharedIndex) (op : IndexOp) (ops : List IndexOp) :
    (ix.run (op :: ops)).state = ((ix.perform op).state.run ops).state := rfl

theorem run_cons_answer (ix : SharedIndex) (op : IndexOp) (ops : List IndexOp) :
    (ix.run (op :: ops)).answer = (ix.perform op).answer :: ((ix.perform op).state.run ops).answer :=
  rfl

theorem Coherent.run (h : ix.Coherent) (ops : List IndexOp) : (ix.run ops).state.Coherent :=
  Step.each_keeps (fun _ op hc => hc.perform op) h ops

theorem Coherent.becomes_run (h : ix.Coherent) (ops : List IndexOp) :
    ix.core.Becomes (ix.run ops).state.core :=
  (Step.each_keeps (P := fun ix' : SharedIndex => ix'.Coherent ∧ ix.core.Becomes ix'.core)
    (fun _ op ⟨hc, hb⟩ => ⟨hc.perform op, hb.trans (hc.becomes_perform op)⟩) ⟨h, .refl _⟩ ops).2

/-- A new shared index has an empty log. -/
theorem coherent_of_index {spec : IndexSpec} {owner : Nat}
    (h : spec.index owner = .ok (.shared ix)) :
    ix.Coherent ∧ ix.core.log = { owner, config := ix.config } := by
  obtain ⟨config, -, -, hf⟩ := IndexSpec.follows_of_index h
  have hlog : ix.core.log = { owner, config } := (Follows.core hf).log_eq
  have hc : config = ix.config :=
    (congrArg Log.config hlog).symm.trans (Follows.config_eq hf).symm
  exact ⟨Follows.coherent hf, hc ▸ hlog⟩

end SharedIndex

namespace AnyIndex

variable {ix : AnyIndex}

def Coherent (ix : AnyIndex) : Prop := ix.Follows ix.core.log

theorem Follows.coherent {l : Log} (h : ix.Follows l) : ix.Coherent := by
  cases ix with
  | base ix => exact Index.Coherent.follows (Index.Follows.coherent h)
  | shared ix => exact SharedIndex.Follows.coherent h

theorem Coherent.perform (h : ix.Coherent) (op : IndexOp) : (ix.perform op).state.Coherent :=
  (Follows.perform h op).1.coherent

theorem Coherent.becomes_perform (h : ix.Coherent) (op : IndexOp) :
    ix.core.Becomes (ix.perform op).state.core := by
  cases ix with
  | base ix => exact Index.Coherent.becomes_perform (Index.Follows.coherent h) op
  | shared ix =>
    by_cases hop : op = .unshare
    · subst hop
      exact .refl ix.core
    · rw [perform_shared ix hop]
      exact SharedIndex.Coherent.becomes_perform h op

end AnyIndex

end HashJoin
