import HashJoin.Proofs.Renaming
import HashJoin.Proofs.Scan
import Mathlib.Logic.Equiv.Basic

/-! A shared index is the index inside it, seen through snapshots. It forms keys from its own
copy of the configuration, which is always the one that the index inside has, and it scans the
entries that are stored when the scan begins, which are those that a lazy scan would come to.
So on the operations that both kinds have, a shared index does what one that is not shared does,
and when it is given up, the index inside goes on. The two that are compared have different
owners, and a renaming says which handle the one is offered where the other is offered a given
one; a renaming that exchanges the two owners leaves the handles of all other indices alone. -/

namespace HashJoin

/-- Whether a shared index and one that is not shared both have the operation. -/
def IndexOp.isCommon : IndexOp → Bool
  | .insert _ | .insertAll _ | .insertNew _ | .keying _ | .lookup _ | .probe _ | .mark _
    | .clearHits | .scan .. | .summary | .config | .join .. => true
  | .unshare | .buckets | .remove .. | .removeBucket _ | .consume .. => false

theorem IndexOp.isCommon_renamed (ρ : Nat → Nat) (op : IndexOp) :
    (op.renamed ρ).isCommon = op.isCommon := by
  cases op <;> rfl

namespace SharedIndex

variable (ix : Index)

/-! ### One operation -/

theorem lift_ofIndex {α : Type} {ix : Index} {s : Step Index α} (h : ix.Becomes s.state) :
    (ofIndex ix).lift s = s.map ofIndex id := by
  rw [lift, Step.map, Step.map, ofIndex, ofIndex, h.config]

theorem insert_ofIndex (s : Solution) : (ofIndex ix).insert s = (ix.insert s).map ofIndex id :=
  lift_ofIndex (Index.insertKeyed_keeps Index.Becomes.append (.refl ix) s _)

theorem insertAll_ofIndex (solutions : List Solution) :
    (ofIndex ix).insertAll solutions = (ix.insertAll solutions).map ofIndex id :=
  lift_ofIndex (Index.foldl_addKeyed_keeps Index.Becomes.append (.refl ix) {} _)

theorem insertNew_ofIndex (s : Solution) :
    (ofIndex ix).insertNew s = (ix.insertNew s).map ofIndex id :=
  lift_ofIndex (Index.insertNewKeyed_keeps Index.Becomes.append (.refl ix) s _)

theorem probe_ofIndex (s : Solution) : (ofIndex ix).probe s = (ix.probe s).map ofIndex id := by
  have hsame : ix.Becomes (ix.probe s).state := by
    rw [Index.probe_state]
    exact .refl ix
  exact lift_ofIndex hsame

theorem mark_ofIndex (e : Handle) : (ofIndex ix).mark e = (ix.mark e).map ofIndex id :=
  lift_ofIndex (ix.becomes_mark e)

theorem join_ofIndex (op : Operator) (probe : Solution) :
    (ofIndex ix).join op probe = (ix.join op probe).map ofIndex id := by
  have hbucket : ∀ b, (ofIndex ix).lift ((ofIndex ix).core.joinBucket op probe b) =
      (ix.joinBucket op probe b).map ofIndex id :=
    fun b => lift_ofIndex (ix.becomes_joinBucket op probe b)
  rw [join, Index.join, probe_ofIndex, Step.andThen, Step.andThen]
  simp only [Step.map_state, Step.map_answer, ix.probe_state, hbucket]
  rfl

/-- To scan what was stored at the beginning is to scan what comes. -/
theorem scan_ofIndex (hitClass : HitClass) (limit : Option Nat) :
    (ofIndex ix).scan hitClass limit = (ix.scan hitClass limit).map ofIndex id := by
  have hfound : ((ofIndex ix).scan hitClass limit).answer = (ix.scan hitClass limit).answer := by
    rw [Index.scan_answer]
    cases limit with
    | none => exact List.take_length.symm
    | some n => rfl
  exact congrArg (fun found : List Solution =>
    (⟨found, ofIndex ix, hitClass.emitting found.length⟩ : Step SharedIndex _)) hfound

theorem perform_ofIndex {op : IndexOp} (hop : op.isCommon = true) :
    (ofIndex ix).perform op = (ix.perform op).map ofIndex id := by
  cases op with
  | insert s =>
    rw [perform, Index.perform, insert_ofIndex]
    rfl
  | insertAll solutions =>
    rw [perform, Index.perform, insertAll_ofIndex]
    rfl
  | insertNew s =>
    rw [perform, Index.perform, insertNew_ofIndex]
    rfl
  | probe s =>
    rw [perform, Index.perform, probe_ofIndex]
    rfl
  | mark e =>
    rw [perform, Index.perform, mark_ofIndex]
    rfl
  | scan c limit =>
    rw [perform, Index.perform, scan_ofIndex]
    rfl
  | join op probe =>
    rw [perform, Index.perform, join_ofIndex]
    rfl
  | keying s | lookup k | clearHits | summary | config => rfl
  | unshare | buckets | remove k e | removeBucket k | consume op probe => contradiction

end SharedIndex

namespace AnyIndex

/-! ### Many operations -/

/-- The index, shared from now on. -/
def sharing (ix : Index) : AnyIndex := shared (.ofIndex ix)

theorem run_base (ix : Index) (ops : List IndexOp) :
    (base ix).run ops = (ix.run ops).map base id :=
  Step.each_map_state (fun _ _ _ => rfl) ix

theorem run_sharing (ix : Index) {ops : List IndexOp} (hops : ∀ op ∈ ops, op.isCommon = true) :
    (sharing ix).run ops = (ix.run ops).map sharing id := by
  refine Step.each_map_state (fun ix op hop => ?_) ix
  have hcommon := hops op hop
  have hne : op ≠ .unshare := by rintro rfl; contradiction
  rw [sharing, perform_shared _ hne, SharedIndex.perform_ofIndex ix hcommon]
  rfl

variable {ρ : Nat → Nat}

theorem run_sharing_renamed (hρ : ρ.Injective) (ix : Index) {ops : List IndexOp}
    (hops : ∀ op ∈ ops, op.isCommon = true) :
    (sharing (ix.renamed ρ)).run (ops.map (.renamed ρ)) =
      (ix.run ops).map (fun ix => sharing (ix.renamed ρ)) (List.map (Reply.renamed ρ)) := by
  have hrenamed : ∀ op ∈ ops.map (IndexOp.renamed ρ), op.isCommon = true := by
    rw [List.forall_mem_map]
    exact fun op hop => (op.isCommon_renamed ρ).trans (hops op hop)
  rw [run_sharing _ hrenamed, Index.run_renamed hρ]
  rfl

/-- The second run answers like the first one with the owners renamed, raises the counters by
as much, and leaves an index with the same counts and the same entries. -/
structure Agree (ρ : Nat → Nat) (first second : Step AnyIndex (List Reply)) : Prop where
  answer : second.answer = first.answer.map (Reply.renamed ρ)
  counters : second.counters = first.counters
  stored : second.state.core.stored = first.state.core.stored
  bucketCount : second.state.core.bucketCount = first.state.core.bucketCount
  isEmpty : second.state.core.isEmpty = first.state.core.isEmpty
  ledger : second.state.core.ledger = first.state.core.ledger

theorem agree_sharing (hρ : ρ.Injective) (ix : Index) {ops : List IndexOp}
    (hops : ∀ op ∈ ops, op.isCommon = true) :
    Agree ρ ((base ix).run ops) ((sharing (ix.renamed ρ)).run (ops.map (.renamed ρ))) := by
  rw [run_base, run_sharing_renamed hρ ix hops]
  exact ⟨rfl, rfl, rfl, rfl, rfl, rfl⟩

theorem agree_base (hρ : ρ.Injective) (ix : Index) (ops : List IndexOp) :
    Agree ρ ((base ix).run ops) ((base (ix.renamed ρ)).run (ops.map (.renamed ρ))) := by
  rw [run_base, run_base, Index.run_renamed hρ]
  exact ⟨rfl, rfl, rfl, rfl, rfl, rfl⟩

/-- The shared index that is made where this one is made, if owners are renamed. -/
def sharedAs (ρ : Nat → Nat) (ix : AnyIndex) : AnyIndex := sharing (ix.core.renamed ρ)

end AnyIndex

/-- A shared index is made when one that is not shared is made, and refused for the same fault. -/
theorem IndexSpec.index_shared (ρ : Nat → Nat) (owner : Nat) (source : ConfigSource)
    (map : Option Buckets) : index ⟨true, source, map⟩ (ρ owner) =
      (index ⟨false, source, map⟩ owner).map (AnyIndex.sharedAs ρ) := by
  rw [index, index]
  cases source.config with
  | error e => rfl
  | ok config =>
    cases map with
    | none => rfl
    | some buckets =>
      simp only [SharedIndex.onMap, Index.onMap]
      split <;> rfl

namespace AnyIndex

/-- A shared index does what an index that is not shared would do. Let two be made alike, but
for the one being shared and for their owners, and let both do some operations that both kinds
have, each with its own entries. On whatever such operations come then they agree, on a single
one as on many, and so on all from the beginning. They agree on any operations at all, if the
shared index is first given up for the one inside it. -/
theorem run_sharedAs_agree {ρ : Nat → Nat} (hρ : ρ.Injective) (owner : Nat)
    (source : ConfigSource) (map : Option Buckets) :
    IndexSpec.index ⟨true, source, map⟩ (ρ owner) =
        (IndexSpec.index ⟨false, source, map⟩ owner).map (sharedAs ρ) ∧
      ∀ ix, IndexSpec.index ⟨false, source, map⟩ owner = .ok ix →
        ∀ ops : List IndexOp, (∀ op ∈ ops, op.isCommon = true) → ∀ more : List IndexOp,
          let alone := (ix.run ops).state
          let shared := ((ix.sharedAs ρ).run (ops.map (.renamed ρ))).state
          ((∀ op ∈ more, op.isCommon = true) →
            Agree ρ (alone.run more) (shared.run (more.map (.renamed ρ)))) ∧
          ∃ inner, shared.perform .unshare = ⟨.done, inner, 0⟩ ∧
            Agree ρ (alone.run more) (inner.run (more.map (.renamed ρ))) := by
  refine ⟨IndexSpec.index_shared ρ owner source map, fun ix h ops hops more => ?_⟩
  obtain ⟨-, -, hshared, -⟩ := IndexSpec.follows_of_index h
  cases ix with
  | shared ix => contradiction
  | base ix =>
    intro alone shared
    have halone : alone = base (ix.run ops).state := congrArg Step.state (run_base ix ops)
    have hsharing : shared = sharing ((ix.run ops).state.renamed ρ) :=
      congrArg Step.state (run_sharing_renamed hρ ix hops)
    rw [halone, hsharing]
    exact ⟨agree_sharing hρ _, _, rfl, agree_base hρ _ more⟩

/-- The two owners change places, so each index marks its own first entry and refuses that of
the other one. The shared index is given up before it lists its bucket and takes in a solution. -/
theorem run_sharedAs_agree_swap :
    let s := Solution.ofBindings [(⟨"x"⟩, .integer 1)]
    let t := Solution.ofBindings [(⟨"x"⟩, .integer 1), (⟨"y"⟩, .integer 2)]
    let source := ConfigSource.ofSettings [.vars [⟨"x"⟩]]
    let ρ := Equiv.swap 0 1
    let ops : List IndexOp := [.insertAll [s, t, .empty], .insertNew t, .mark ⟨0, 0⟩, .mark ⟨1, 0⟩,
      .scan .unmatched none, .join .optional s, .scan .unmatched none, .summary]
    let more : List IndexOp := [.buckets, .insert s]
    Function.Injective ρ ∧
    ∃ ix, IndexSpec.index ⟨false, source, some (.empty .arrival)⟩ 0 = .ok ix ∧
      (∀ op ∈ ops, op.isCommon = true) ∧
      (ix.run ops).answer = [.intake ⟨2, 1⟩, .flag false, .flag true, .flag false,
        .solutions [t], .matches ⟨[s, t], 2⟩, .solutions [], .summary ⟨1, 2, 2, 0, 2⟩] ∧
      Agree ρ (ix.run ops) ((ix.sharedAs ρ).run (ops.map (.renamed ρ))) ∧
      ∃ inner, ((ix.sharedAs ρ).run (ops.map (.renamed ρ))).state.perform .unshare =
          ⟨.done, inner, 0⟩ ∧
        Agree ρ ((ix.run ops).state.run more) (inner.run (more.map (.renamed ρ))) := by
  intro s t source ρ ops more
  have hops : ∀ op ∈ ops, op.isCommon = true := by
    subst ops
    decide
  have hmade : ∃ ix, IndexSpec.index ⟨false, source, some (.empty .arrival)⟩ 0 = .ok ix ∧
      (ix.run ops).answer = [.intake ⟨2, 1⟩, .flag false, .flag true, .flag false,
        .solutions [t], .matches ⟨[s, t], 2⟩, .solutions [], .summary ⟨1, 2, 2, 0, 2⟩] := by
    subst ops source t s
    exact ⟨_, rfl, by decide +kernel⟩
  obtain ⟨ix, h, hanswer⟩ := hmade
  have hagree := (run_sharedAs_agree ρ.injective 0 source (some (.empty .arrival))).2 ix h
  have hnil : ∀ op ∈ ([] : List IndexOp), op.isCommon = true := by simp
  exact ⟨ρ.injective, ix, h, hops, hanswer, (hagree [] hnil ops).1 hops, (hagree ops hops more).2⟩

end AnyIndex

end HashJoin
