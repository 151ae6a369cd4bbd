import HashJoin.Proofs.Consuming

/-! Shrinking the build side. An operator that looks at hits afterwards only asks whether
there were any, so its matches may as well be taken out at once. Two indices are fed the
same solutions and the same probes; in one of them the probes leave their matches where they
are, in the other they take them out. At any time the second index holds the entries of the
first that have not been matched: the rest drops out of its buckets and often takes whole
buckets along, which are made anew when more comes in. A solution that is stored only when
it is new must not be fed, for the second index has forgotten its matches. -/

namespace HashJoin

/-- What is fed to an index: solutions to store, and probes. -/
inductive Feed where
  | insert (s : Solution)
  | insertAll (solutions : List Solution)
  | probe (p : Solution)
  deriving DecidableEq

namespace Feed

/-- The operation when probes leave their matches in the index. -/
def joining (op : Operator) : Feed → IndexOp
  | insert s => .insert s
  | insertAll solutions => .insertAll solutions
  | probe p => .join op p

/-- The operation when probes take their matches out. -/
def consuming (op : Operator) : Feed → IndexOp
  | insert s => .insert s
  | insertAll solutions => .insertAll solutions
  | probe p => .consume op p

variable (op : Operator) (feed : Feed)

theorem joining_ne_unshare : feed.joining op ≠ .unshare := by cases feed <;> exact nofun

theorem consuming_ne_unshare : feed.consuming op ≠ .unshare := by cases feed <;> exact nofun

end Feed

namespace Record

theorem isIn_unmatched (r : Record) : isIn .unmatched r = !isIn .matched r := by
  cases h : r.hits <;> simp [isIn, h]

end Record

namespace Log

/-- The one log has the records of the other that have not been matched. -/
structure Sheds (kept shrunk : Log) : Prop where
  config : shrunk.config = kept.config
  next : shrunk.next = kept.next
  records : shrunk.records = kept.records.filter (Record.isIn .unmatched)

variable {l kept shrunk : Log} {op : Operator}

theorem Sheds.insert (h : kept.Sheds shrunk) (s : Solution) :
    (kept.insert s).Sheds (shrunk.insert s) := by
  rw [Log.insert, Log.insert, h.config]
  split
  next => exact h
  next =>
    refine ⟨h.config, congrArg (· + 1) h.next, ?_⟩
    rw [append, append, h.records, h.next, List.filter_append]
    rfl

theorem Sheds.insertAll (h : kept.Sheds shrunk) (solutions : List Solution) :
    (kept.insertAll solutions).Sheds (shrunk.insertAll solutions) := by
  induction solutions generalizing kept shrunk with
  | nil => exact h
  | cons s solutions ih => exact ih (h.insert s)

/-- What a probe counts in the one log it deletes from the other. -/
theorem Sheds.probe (h : kept.Sheds shrunk) (hop : op.countsHits = true) (p : Solution) :
    (kept.join op p).Sheds (shrunk.consume op p) := by
  rw [join, if_pos hop]
  refine ⟨h.config, h.next, ?_⟩
  change shrunk.records.filter (fun r => !shrunk.config.meets op r.solution p) = _
  rw [h.config, h.records, List.filter_filter, recount, List.filter_map]
  have hsame : ∀ r ∈ kept.records,
      (Record.isIn .unmatched ∘ fun r => { r with
        hits := if kept.config.meets op r.solution p then r.hits + 1 else r.hits }) r =
        (!kept.config.meets op r.solution p && Record.isIn .unmatched r) := by
    intro r _
    rw [Function.comp_apply, Record.isIn]
    cases kept.config.meets op r.solution p <;> simp [Record.isIn]
  rw [List.filter_congr hsame]
  refine ((List.map_congr_left fun r hr => ?_).trans (List.map_id _)).symm
  obtain ⟨-, hr⟩ := List.mem_filter.1 hr
  rw [Bool.and_eq_true, Bool.not_eq_true'] at hr
  rw [hr.1]
  rfl

theorem Sheds.step (h : kept.Sheds shrunk) (hop : op.countsHits = true) (feed : Feed) :
    (kept.step true (feed.joining op)).Sheds (shrunk.step true (feed.consuming op)) := by
  cases feed with
  | insert s => exact h.insert s
  | insertAll solutions => exact h.insertAll solutions
  | probe p => exact h.probe hop p

theorem Sheds.unmatched (h : kept.Sheds shrunk) :
    shrunk.solutionsIn .unmatched = kept.solutionsIn .unmatched := by
  rw [solutionsIn, h.records, List.filter_filter, solutionsIn]
  simp only [Bool.and_self]

/-! ### Matched records -/

theorem matched_insert (l : Log) (s : Solution) :
    (l.insert s).solutionsIn .matched = l.solutionsIn .matched := by
  rw [Log.insert]
  split
  next => rfl
  next =>
    rw [solutionsIn, append, List.filter_append]
    exact congrArg (List.map Record.solution) (List.append_nil _)

theorem matched_insertAll (l : Log) (solutions : List Solution) :
    (l.insertAll solutions).solutionsIn .matched = l.solutionsIn .matched := by
  induction solutions generalizing l with
  | nil => rfl
  | cons s solutions ih => exact (ih (l.insert s)).trans (l.matched_insert s)

/-- A probe adds to the matched records those that it meets for the first time. -/
theorem Sheds.matched_join (h : kept.Sheds shrunk) (hop : op.countsHits = true) (p : Solution) :
    ((kept.join op p).solutionsIn .matched).Perm (kept.solutionsIn .matched ++
      (shrunk.records.filter fun r => shrunk.config.meets op r.solution p).map Record.solution) := by
  have hafter : (kept.join op p).solutionsIn .matched = (kept.records.filter fun r =>
      Record.isIn .matched r || kept.config.meets op r.solution p).map Record.solution := by
    rw [join, if_pos hop, solutionsIn, recount, List.filter_map, List.map_map]
    congr 1
    refine List.filter_congr fun r _ => ?_
    rw [Function.comp_apply, Record.isIn]
    cases kept.config.meets op r.solution p <;> simp [Record.isIn]
  rw [hafter, solutionsIn, ← List.map_append]
  refine List.Perm.map _ (((List.filter_append_perm (Record.isIn .matched) _).symm.trans ?_))
  rw [List.filter_filter, List.filter_filter, h.config, h.records, List.filter_filter]
  refine List.Perm.append (.of_eq (List.filter_congr fun r _ => ?_))
    (.of_eq (List.filter_congr fun r _ => ?_))
  · cases Record.isIn .matched r <;> rfl
  · rw [Record.isIn_unmatched]
    cases Record.isIn .matched r <;> cases kept.config.meets op r.solution p <;> rfl

end Log

namespace Ledger

/-- The solutions of some entries, in the order in which these are given. -/
def solutionsAt (ledger : Ledger) (ids : List EntryId) : List Solution :=
  ids.filterMap fun id => ledger[id]?.map Entry.solution

theorem solutionsAt_append (ledger : Ledger) (ids ids' : List EntryId) :
    ledger.solutionsAt (ids ++ ids') = ledger.solutionsAt ids ++ ledger.solutionsAt ids' :=
  List.filterMap_append

/-- A record can still be read when its entry is gone. -/
theorem Precedes.solutionsAt_map_id {before after : Ledger} (h : before.Precedes after)
    {records : List Record} (hr : ∀ r ∈ records, r ∈ before.records) :
    after.solutionsAt (records.map Record.id) = records.map Record.solution := by
  rw [solutionsAt, List.filterMap_map, ← List.filterMap_eq_map']
  refine List.filterMap_congr fun r hm => ?_
  obtain ⟨e, he, hs, -⟩ := h r.id r.entry (mem_records.1 (hr r hm))
  rw [Function.comp_apply, he]
  exact congrArg some hs

end Ledger

namespace Buckets

variable {pairs : List (Key × Bucket)} {gone : List EntryId}

theorem mem_without {k : Key} {b : Bucket} :
    (k, b) ∈ without pairs gone ↔ ∃ b₀, (k, b₀) ∈ pairs ∧ b₀.without gone = b ∧ b ≠ [] := by
  rw [without, List.mem_filterMap]
  constructor
  · rintro ⟨⟨k₀, b₀⟩, hp, he⟩
    split at he
    next => contradiction
    next hne =>
      cases he
      exact ⟨b₀, hp, rfl, hne⟩
  · rintro ⟨b₀, hp, rfl, hne⟩
    exact ⟨(k, b₀), hp, if_neg hne⟩

theorem Rising.without (h : Rising pairs) (gone : List EntryId) :
    Rising (Buckets.without pairs gone) := by
  refine List.Pairwise.filterMap _ (fun p q hlt p' hp q' hq => ?_) h
  split at hp <;> split at hq <;> cases hp <;> cases hq
  exact hlt

end Buckets

namespace Index

variable {kept shrunk : Index}

theorem Coherent.matched_eq (h : kept.Coherent) (op : Operator) (probe : Solution) :
    kept.matched op probe =
      (kept.log.records.filter fun r => kept.config.meets op r.solution probe).map Record.id := by
  rw [matched, h.matching_probe, Log.map_fst_met]
  rfl

/-- The entries that have been matched. -/
def matchedIds (ix : Index) : List EntryId :=
  (ix.log.records.filter (Record.isIn .matched)).map Record.id

theorem mem_matchedIds {r : Record} (hr : r ∈ kept.log.records) :
    r.id ∈ kept.matchedIds ↔ Record.isIn .matched r = true := Ledger.id_mem_filter_iff hr _

theorem chainIds_of_sheds (h : kept.log.Sheds shrunk.log) (k : Key) :
    shrunk.log.chainIds k = Bucket.without (kept.log.chainIds k) kept.matchedIds := by
  rw [Bucket.without, Log.chainIds, Log.chainIds, List.filter_map, Log.chain, Log.chain,
    List.filter_filter, h.records, h.config, List.filter_filter]
  congr 1
  refine List.filter_congr fun r hr => ?_
  simp only [Function.comp_apply, decide_not, mem_matchedIds hr, Bool.decide_eq_true]
  rw [Record.isIn_unmatched, Bool.and_comm]

/-- On maps that go by key the shrunk map is the other one without the matched entries. -/
theorem toList_of_sheds (hkept : kept.Coherent) (hshrunk : shrunk.Coherent)
    (h : kept.log.Sheds shrunk.log) (hkind : kept.buckets.kind ≠ .arrival)
    (hkind' : shrunk.buckets.kind ≠ .arrival) :
    shrunk.buckets.toList = Buckets.without kept.buckets.toList kept.matchedIds := by
  have hrising := (Buckets.rising_toList hkind).without kept.matchedIds
  refine (Buckets.rising_toList hkind').ext hrising fun k b => ?_
  rw [hshrunk.mem_toList_iff, chainIds_of_sheds h, Buckets.mem_without]
  constructor
  · rintro ⟨rfl, hne⟩
    have hchain : kept.log.chainIds k ≠ [] := fun hn => hne (by rw [hn, Bucket.without_nil])
    exact ⟨_, hkept.mem_toList_iff.2 ⟨rfl, hchain⟩, rfl, hne⟩
  · rintro ⟨b₀, hb, rfl, hne⟩
    rw [(hkept.mem_toList_iff.1 hb).1] at hne ⊢
    exact ⟨rfl, hne⟩

/-- So its scan for entries that were not matched gives the same list. -/
theorem scan_of_sheds (hkept : kept.Coherent) (h : kept.log.Sheds shrunk.log)
    (hids : shrunk.storedIds = kept.storedIds.filter (· ∉ kept.matchedIds)) :
    HitClass.unmatched.solutions shrunk.ledger shrunk.storedIds =
      HitClass.unmatched.solutions kept.ledger kept.storedIds := by
  rw [hids, HitClass.solutions, HitClass.solutions, List.filterMap_filter]
  refine List.filterMap_congr fun id hid => ?_
  obtain ⟨r, hr, rfl⟩ := List.mem_map.1 (hkept.storedIds_perm.mem_iff.1 hid)
  by_cases hm : r.id ∈ kept.matchedIds
  · have hhits : r.entry.isMatched = true := (mem_matchedIds hr).1 hm
    rw [if_neg (by simpa using hm), ledger_of_mem hr, Option.filter_some, HitClass.includes, hhits]
    rfl
  · have hn : Record.isIn .unmatched r = true := by
      rw [Record.isIn_unmatched, Bool.not_eq_true', Bool.eq_false_iff, ne_eq, ← mem_matchedIds hr]
      exact hm
    have hr' : r ∈ shrunk.log.records := h.records ▸ List.mem_filter.2 ⟨hr, hn⟩
    rw [if_pos (decide_eq_true hm), ledger_of_mem hr, ledger_of_mem hr']

end Index

namespace SharedIndex

variable {ix kept shrunk : SharedIndex} {op : Operator}

theorem Coherent.log_perform (h : ix.Coherent) {op : IndexOp} (hop : op ≠ .unshare) :
    (ix.perform op).state.core.log = ix.core.log.step true op :=
  (Follows.perform h hop).1.core.log_eq

/-- The second index holds what has not been matched in the first. -/
structure Sheds (kept shrunk : SharedIndex) : Prop where
  left : kept.Coherent
  right : shrunk.Coherent
  log : kept.core.log.Sheds shrunk.core.log

theorem Sheds.perform (h : kept.Sheds shrunk) (hop : op.countsHits = true) (feed : Feed) :
    (kept.perform (feed.joining op)).state.Sheds (shrunk.perform (feed.consuming op)).state where
  left := h.left.perform _
  right := h.right.perform _
  log := by
    rw [h.left.log_perform (feed.joining_ne_unshare op),
      h.right.log_perform (feed.consuming_ne_unshare op)]
    exact h.log.step hop feed

theorem Sheds.run (h : kept.Sheds shrunk) (hop : op.countsHits = true) (feeds : List Feed) :
    (kept.run (feeds.map (Feed.joining op))).state.Sheds
      (shrunk.run (feeds.map (Feed.consuming op))).state := by
  induction feeds generalizing kept shrunk with
  | nil => exact h
  | cons feed feeds ih => exact ih (h.perform hop feed)

/-- What is matched for the first time in the one index is consumed in the other. -/
theorem Sheds.matched_perform (h : kept.Sheds shrunk) (hop : op.countsHits = true) (feed : Feed)
    {ledger : Ledger} (hl : shrunk.core.ledger.Precedes ledger) :
    ((kept.perform (feed.joining op)).state.core.log.solutionsIn .matched).Perm
      (kept.core.log.solutionsIn .matched ++
        ledger.solutionsAt (shrunk.consumed (feed.consuming op))) := by
  rw [h.left.log_perform (feed.joining_ne_unshare op)]
  cases feed with
  | insert s =>
    refine .of_eq ((kept.core.log.matched_insert s).trans ?_)
    exact (List.append_nil _).symm
  | insertAll solutions =>
    refine .of_eq ((kept.core.log.matched_insertAll solutions).trans ?_)
    exact (List.append_nil _).symm
  | probe p =>
    change ((kept.core.log.join op p).solutionsIn .matched).Perm
      (_ ++ ledger.solutionsAt (shrunk.core.matched op p))
    have hmem : ∀ r ∈ shrunk.core.log.records.filter fun r =>
        shrunk.core.config.meets op r.solution p, r ∈ shrunk.core.ledger.records :=
      fun r hr => (List.mem_filter.1 hr).1
    rw [h.right.core.coherent.matched_eq, hl.solutionsAt_map_id hmem]
    exact h.log.matched_join hop p

theorem Sheds.matched_run (h : kept.Sheds shrunk) (hop : op.countsHits = true)
    (feeds : List Feed) :
    ((kept.run (feeds.map (Feed.joining op))).state.core.log.solutionsIn .matched).Perm
      (kept.core.log.solutionsIn .matched ++
        (shrunk.run (feeds.map (Feed.consuming op))).state.core.ledger.solutionsAt
          (shrunk.consumedIn (feeds.map (Feed.consuming op)))) := by
  induction feeds generalizing kept shrunk with
  | nil => exact .of_eq (List.append_nil _).symm
  | cons feed feeds ih =>
    have hledger := (h.right.becomes_run ((feed :: feeds).map (Feed.consuming op))).ledger
    have hone := h.matched_perform hop feed hledger
    rw [List.map_cons, List.map_cons, consumedIn, Ledger.solutionsAt_append, ← List.append_assoc]
    exact (ih (h.perform hop feed)).trans (hone.append_right _)

/-- Neither of two new indices holds anything. -/
theorem sheds_of_index {spec spec' : IndexSpec} {owner owner' : Nat}
    (h : spec.index owner = .ok (.shared kept)) (h' : spec'.index owner' = .ok (.shared shrunk))
    (hc : kept.config = shrunk.config) : kept.Sheds shrunk := by
  obtain ⟨hkept, hlog⟩ := coherent_of_index h
  obtain ⟨hshrunk, hlog'⟩ := coherent_of_index h'
  refine ⟨hkept, hshrunk, ?_⟩
  rw [hlog, hlog', hc]
  exact ⟨rfl, rfl, rfl⟩

/-- For an operator that counts hits, what is left unmatched in the end is the same whether
the probes leave their matches in the index or take them out, in the same order on ordered
maps; and what they take out is what else would be found matched. -/
theorem run_sheds {spec spec' : IndexSpec} {owner owner' : Nat}
    (h : spec.index owner = .ok (.shared kept)) (h' : spec'.index owner' = .ok (.shared shrunk))
    (hc : kept.config = shrunk.config) (hop : op.countsHits = true) (feeds : List Feed) :
    let kept' := (kept.run (feeds.map (Feed.joining op))).state
    let shrunk' := (shrunk.run (feeds.map (Feed.consuming op))).state
    (shrunk'.scan .unmatched).answer.Perm (kept'.scan .unmatched).answer ∧
      (kept.core.buckets.kind = .ordered → shrunk.core.buckets.kind = .ordered →
        (shrunk'.scan .unmatched).answer = (kept'.scan .unmatched).answer) ∧
      (shrunk'.core.ledger.solutionsAt
        (shrunk.consumedIn (feeds.map (Feed.consuming op)))).Perm
          (kept'.scan .matched).answer := by
  have hnew := sheds_of_index h h' hc
  have hrun := hnew.run hop feeds
  intro kept' shrunk'
  have hkept := hrun.left.core.coherent
  have hshrunk := hrun.right.core.coherent
  refine ⟨?_, fun hkind hkind' => ?_, ?_⟩
  · have hsame := hshrunk.follows.solutions_perm .unmatched
    rw [hrun.log.unmatched] at hsame
    exact hsame.trans (hkept.follows.solutions_perm .unmatched).symm
  · have hk : kept'.core.buckets.kind = .ordered :=
      (hnew.left.becomes_run _).kind.trans hkind
    have hk' : shrunk'.core.buckets.kind = .ordered :=
      (hnew.right.becomes_run _).kind.trans hkind'
    have hlist := Index.toList_of_sheds hkept hshrunk hrun.log (hk ▸ nofun) (hk' ▸ nofun)
    refine Index.scan_of_sheds hkept hrun.log ?_
    rw [Index.storedIds, hlist, Buckets.flatMap_without]
    rfl
  · have hmatched := hnew.matched_run hop feeds
    rw [(coherent_of_index h).2] at hmatched
    exact hmatched.symm.trans (hkept.follows.solutions_perm .matched).symm

/-- A bucket goes with its matches and is made anew by a later arrival, on ordered maps. -/
theorem run_sheds_ordered :
    let s := Solution.ofBindings [(⟨"x"⟩, .integer 1)]
    let t := Solution.ofBindings [(⟨"x"⟩, .integer 2)]
    let spec : IndexSpec := ⟨true, .forOperator .anti [⟨"x"⟩], some (.empty .ordered)⟩
    let feeds : List Feed := [.insertAll [t, s, .empty], .probe s, .insert s, .probe t, .insert t]
    ∃ ix, spec.index 0 = .ok (.shared ix) ∧ Operator.anti.countsHits = true ∧
      let kept' := (ix.run (feeds.map (Feed.joining .anti))).state
      let shrunk' := (ix.run (feeds.map (Feed.consuming .anti))).state
      (shrunk'.scan .unmatched).answer.Perm (kept'.scan .unmatched).answer ∧
        (ix.core.buckets.kind = .ordered → ix.core.buckets.kind = .ordered →
          (shrunk'.scan .unmatched).answer = (kept'.scan .unmatched).answer) ∧
        (shrunk'.core.ledger.solutionsAt
          (ix.consumedIn (feeds.map (Feed.consuming .anti)))).Perm
            (kept'.scan .matched).answer := by
  intro s t spec feeds
  have hmade : ∃ ix, spec.index 0 = .ok (.shared ix) := ⟨_, rfl⟩
  obtain ⟨ix, h⟩ := hmade
  exact ⟨ix, h, rfl, run_sheds h h rfl rfl feeds⟩

end SharedIndex

end HashJoin
