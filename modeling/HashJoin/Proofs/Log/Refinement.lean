import HashJoin.IndexSpec
import HashJoin.Proofs.Log.Observing

/-! Every index is a log of its stored entries. One operation on an index does to its log
what it should and gets a reply that the log allows; so does a whole run from the moment
the index is made, on whatever map and under whatever configuration, and what is to be
seen of the index afterwards is read off the log. -/

namespace HashJoin

namespace Log

variable {l : Log}

@[simp] theorem config_insert (l : Log) (s : Solution) : (l.insert s).config = l.config := by
  rw [insert]
  split <;> rfl

@[simp] theorem config_insertAll (l : Log) (solutions : List Solution) :
    (l.insertAll solutions).config = l.config := by
  induction solutions generalizing l with
  | nil => rfl
  | cons s solutions ih => exact (ih (l.insert s)).trans (l.config_insert s)

/-- No operation changes the configuration. -/
theorem config_step (isShared : Bool) (l : Log) (op : IndexOp) :
    (l.step isShared op).config = l.config := by
  cases op with
  | insert s => exact l.config_insert s
  | insertAll solutions => exact l.config_insertAll solutions
  | insertNew s =>
    rw [step, insertNew]
    split
    · rfl
    · exact l.config_insert s
  | mark h => rw [step, mark]; split <;> rfl
  | join op probe => rw [step, join]; split <;> rfl
  | remove k h => rw [step, remove]; split <;> [split; skip] <;> rfl
  | removeBucket k => rw [step]; split <;> rfl
  | consume op probe => rw [step]; split <;> rfl
  | _ => rfl

end Log

namespace Index

variable {ix : Index} {l : Log}

theorem Follows.config (h : ix.Follows l) : ix.config = l.config := by rw [← h.log_eq, log_config]

theorem Follows.map_snapshot (h : ix.Follows l) (records : Option (List Record)) :
    (records.map (List.map Record.id)).map ix.snapshot = records.map l.snapshot := by
  rw [Option.map_map, ← h.log_eq]
  rfl

theorem Follows.lookup_answer (h : ix.Follows l) (k : Key) :
    (ix.lookup k).answer.map ix.snapshot = (l.bucket? k).map l.snapshot := by
  change (ix.buckets.get? k).map _ = _
  rw [h.bucket, h.map_snapshot]

theorem Follows.probe_answer (h : ix.Follows l) (s : Solution) :
    (ix.probe s).answer.map ix.snapshot =
      ((l.config.keying s).key?.bind l.bucket?).map l.snapshot := by
  rw [Index.probe, keying, h.config]
  cases l.config.keying s with
  | key k => exact h.lookup_answer k
  | missing v => rfl

theorem Follows.lists (h : ix.Follows l) :
    l.Lists (ix.buckets.toList.map fun p => (p.1, ix.snapshot p.2)) := by
  obtain ⟨h, rfl⟩ := h
  obtain ⟨keys, hk, hl⟩ := h.toList_eq
  refine ⟨keys, hk, ?_⟩
  rw [hl, List.map_map]
  rfl

/-- One operation on an index that is not shared. -/
theorem Follows.perform (h : ix.Follows l) (op : IndexOp) :
    (ix.perform op).state.Follows (l.step false op) ∧
      l.Allows false op (ix.perform op).answer := by
  have hl : l.owner = ix.owner ∧ l.config = ix.config := by rw [← h.log_eq]; exact ⟨rfl, rfl⟩
  cases op with
  | insert s =>
    refine ⟨h.insert s, congrArg Reply.entry ?_⟩
    rw [h.insert_answer, hl.1]
    cases (l.config.keying s).isMissing <;> rfl
  | insertAll solutions => exact ⟨h.insertAll solutions, congrArg _ (h.insertAll_answer solutions)⟩
  | insertNew s => exact ⟨h.insertNew s, congrArg _ (h.insertNew_answer s)⟩
  | keying s => exact ⟨h, congrArg Reply.keying (by rw [hl.2]; rfl)⟩
  | lookup k => exact ⟨h, congrArg Reply.bucket (h.lookup_answer k)⟩
  | probe s =>
    refine ⟨?_, congrArg Reply.bucket (h.probe_answer s)⟩
    change (ix.probe s).state.Follows l
    rwa [probe_state]
  | mark e => exact ⟨(h.mark e).1, congrArg _ (h.mark e).2⟩
  | clearHits => exact ⟨h.clearHits, rfl⟩
  | scan hitClass limit =>
    exact ⟨h, _, h.solutions_perm hitClass, congrArg _ (ix.scan_answer hitClass limit)⟩
  | summary => exact ⟨h, congrArg _ h.summary⟩
  | config => exact ⟨h, congrArg _ h.config⟩
  | join op probe => exact ⟨(h.join op probe).1, congrArg _ (h.join op probe).2⟩
  | unshare => exact ⟨h, rfl⟩
  | buckets => exact ⟨h, _, h.lists, rfl⟩
  | remove k e => exact ⟨h, rfl⟩
  | removeBucket k => exact ⟨h, rfl⟩
  | consume op probe => exact ⟨h, rfl⟩

end Index

namespace SharedIndex

variable {ix : SharedIndex} {l : Log}

/-- The index inside follows the log, and keys are formed under the same configuration. -/
structure Follows (ix : SharedIndex) (l : Log) : Prop where
  core : ix.core.Follows l
  config_eq : ix.config = ix.core.config

/-- A shared index with the configuration of the index inside is made from that index. -/
theorem Follows.eq_ofIndex (h : ix.Follows l) : ix = ofIndex ix.core := by
  rw [ofIndex, ← h.config_eq]

/-- A step that leaves the configuration alone. -/
theorem follows_lift {α : Type} {core : Index} {s : Step Index α} (hc : core.config = l.config)
    (hs : s.state.Follows l) : ((ofIndex core).lift s).state.Follows l :=
  ⟨hs, hc.trans hs.config.symm⟩

/-- One operation on an index that stays shared. -/
theorem Follows.perform (h : ix.Follows l) {op : IndexOp} (hop : op ≠ .unshare) :
    (ix.perform op).state.Follows (l.step true op) ∧ l.Allows true op (ix.perform op).answer := by
  have hcore := h.core
  have hcfg : ix.core.config = (l.step true op).config := by
    rw [Log.config_step, hcore.config]
  rw [h.eq_ofIndex]
  generalize ix.core = core at hcore hcfg
  -- what both kinds of indices offer is done by the index inside
  have hboth := hcore.perform op
  cases op with
  | insert s => exact ⟨follows_lift hcfg hboth.1, hboth.2⟩
  | insertAll solutions => exact ⟨follows_lift hcfg hboth.1, hboth.2⟩
  | insertNew s => exact ⟨follows_lift hcfg hboth.1, hboth.2⟩
  | keying s => exact ⟨⟨hcore, rfl⟩, hboth.2⟩
  | lookup k => exact ⟨follows_lift hcfg hboth.1, hboth.2⟩
  | probe s => exact ⟨follows_lift hcfg hboth.1, hboth.2⟩
  | mark e => exact ⟨follows_lift hcfg hboth.1, hboth.2⟩
  | clearHits => exact ⟨follows_lift hcfg hboth.1, hboth.2⟩
  | scan hitClass limit =>
    refine ⟨⟨hcore, rfl⟩, _, hcore.solutions_perm hitClass, ?_⟩
    cases limit with
    | none => exact congrArg Reply.solutions List.take_length.symm
    | some n => rfl
  | summary => exact ⟨⟨hcore, rfl⟩, hboth.2⟩
  | config => exact ⟨⟨hcore, rfl⟩, hboth.2⟩
  | join op probe => exact ⟨follows_lift hcfg hboth.1, hboth.2⟩
  | unshare => exact absurd rfl hop
  | buckets => exact ⟨⟨hcore, rfl⟩, rfl⟩
  | remove k e =>
    exact ⟨follows_lift hcfg (hcore.remove k e).1, congrArg Reply.flag (hcore.remove k e).2⟩
  | removeBucket k =>
    refine ⟨follows_lift hcfg (hcore.removeBucket k).1, congrArg Reply.bucket ?_⟩
    change (core.removeBucket k).answer.map core.snapshot = _
    rw [(hcore.removeBucket k).2, hcore.map_snapshot]
  | consume op probe =>
    exact ⟨follows_lift hcfg (hcore.consume op probe).1,
      congrArg Reply.matches (hcore.consume op probe).2⟩

end SharedIndex

namespace AnyIndex

def isShared : AnyIndex → Bool
  | base _ => false
  | shared _ => true

/-- The operations one after the other, with their replies. -/
def run (ix : AnyIndex) (ops : List IndexOp) : Step AnyIndex (List Reply) :=
  Step.each perform ix ops

def Follows : AnyIndex → Log → Prop
  | base ix, l => ix.Follows l
  | shared ix, l => ix.Follows l

variable {ix : AnyIndex} {l : Log}

theorem Follows.core (h : ix.Follows l) : ix.core.Follows l := by
  cases ix with
  | base ix => exact h
  | shared ix => exact SharedIndex.Follows.core h

theorem perform_shared (ix : SharedIndex) {op : IndexOp} (h : op ≠ .unshare) :
    (shared ix).perform op = (ix.perform op).map shared id := by
  cases op
  case unshare => exact absurd rfl h
  all_goals rfl

theorem Follows.perform (h : ix.Follows l) (op : IndexOp) :
    (ix.perform op).state.Follows (l.step ix.isShared op) ∧
      l.Allows ix.isShared op (ix.perform op).answer ∧
      (ix.perform op).state.isShared = (ix.isShared && op ≠ .unshare) := by
  cases ix with
  | base ix =>
    obtain ⟨hs, ha⟩ := Index.Follows.perform h op
    exact ⟨hs, ha, rfl⟩
  | shared ix =>
    by_cases hop : op = .unshare
    · subst hop
      exact ⟨SharedIndex.Follows.core h, rfl, rfl⟩
    · obtain ⟨hs, ha⟩ := SharedIndex.Follows.perform h hop
      rw [perform_shared ix hop]
      exact ⟨hs, ha, by simp [isShared, hop]⟩

theorem Follows.run (h : ix.Follows l) (ops : List IndexOp) :
    (ix.run ops).state.Follows (l.run ix.isShared ops) ∧
      l.Explains ix.isShared ops (ix.run ops).answer := by
  induction ops generalizing ix l with
  | nil => exact ⟨h, trivial⟩
  | cons op ops ih =>
    obtain ⟨hs, ha, hshared⟩ := h.perform op
    obtain ⟨hrun, hexp⟩ := ih hs
    rw [hshared] at hrun hexp
    exact ⟨hrun, ha, hexp⟩

end AnyIndex

namespace Index

theorem follows_new (owner : Nat) (config : Config) :
    (Index.new owner config).Follows { owner, config } :=
  ⟨.of_size_eq_zero owner config Std.HashMap.size_empty, rfl⟩

theorem follows_of_onMap {owner : Nat} {config : Config} {buckets : Buckets} {ix : Index}
    (h : onMap owner config buckets = .ok ix) : ix.Follows { owner, config } := by
  rw [onMap] at h
  split at h
  next hb =>
    cases h
    exact ⟨.of_size_eq_zero owner config hb, rfl⟩
  next => contradiction

end Index

namespace IndexSpec

/-- An index starts with an empty log. -/
theorem follows_of_index {spec : IndexSpec} {owner : Nat} {ix : AnyIndex}
    (h : spec.index owner = .ok ix) : ∃ config, spec.source.config = .ok config ∧
      ix.isShared = spec.isShared ∧ ix.Follows { owner, config } := by
  obtain ⟨isShared, source, map⟩ := spec
  rw [index] at h
  cases hs : source.config with
  | error e =>
    rw [hs] at h
    contradiction
  | ok config =>
    rw [hs] at h
    refine ⟨config, rfl, ?_⟩
    cases isShared with
    | false =>
      cases map with
      | none =>
        cases h
        exact ⟨rfl, Index.follows_new owner config⟩
      | some buckets =>
        cases ho : Index.onMap owner config buckets with
        | error e => simp [ho, Except.map] at h
        | ok core =>
          simp only [ho, Except.map, Except.ok.injEq] at h
          subst h
          exact ⟨rfl, Index.follows_of_onMap ho⟩
    | true =>
      cases map with
      | none =>
        cases h
        exact ⟨rfl, Index.follows_new owner config, rfl⟩
      | some buckets =>
        cases ho : Index.onMap owner config buckets with
        | error e => simp [SharedIndex.onMap, ho, Except.map] at h
        | ok core =>
          simp only [SharedIndex.onMap, ho, Except.map, Except.ok.injEq] at h
          subst h
          exact ⟨rfl, Index.follows_of_onMap ho, rfl⟩

end IndexSpec

namespace AnyIndex

/-- From the moment an index is made, its replies are those that the log allows, and what
is to be seen of it after any operations is read off the log that they lead to. -/
theorem run_shows_log {spec : IndexSpec} {owner : Nat} {ix : AnyIndex}
    (h : spec.index owner = .ok ix) (ops : List IndexOp) :
    ∃ config, spec.source.config = .ok config ∧
      Log.Explains spec.isShared { owner, config } ops (ix.run ops).answer ∧
      (ix.run ops).state.core.Shows (Log.run spec.isShared { owner, config } ops) := by
  obtain ⟨config, hc, hshared, hf⟩ := IndexSpec.follows_of_index h
  obtain ⟨hrun, hexp⟩ := hf.run ops
  rw [hshared] at hrun hexp
  exact ⟨config, hc, hexp, hrun.core.shows⟩

/-- An entry comes back under a new number after it was consumed, on a map that lists its
buckets by arrival. -/
theorem run_shows_log_arrival :
    let s := Solution.ofBindings [(⟨"x"⟩, .integer 1)]
    let spec : IndexSpec := ⟨true, .ofSettings [.vars [⟨"x"⟩]], some (.empty .arrival)⟩
    let ops : List IndexOp := [.insert s, .insert .empty, .join .optional s, .consume .inner s,
      .insertNew s, .mark ⟨0, 1⟩, .scan .matched none]
    ∃ ix, spec.index 0 = .ok ix ∧ ∃ config, spec.source.config = .ok config ∧
      Log.Explains spec.isShared { owner := 0, config } ops (ix.run ops).answer ∧
      (ix.run ops).state.core.Shows (Log.run spec.isShared { owner := 0, config } ops) := by
  intro s spec ops
  have hmade : ∃ ix, spec.index 0 = .ok ix := ⟨_, rfl⟩
  obtain ⟨ix, h⟩ := hmade
  exact ⟨ix, h, run_shows_log h ops⟩

end AnyIndex

end HashJoin
