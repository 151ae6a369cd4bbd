import HashJoin.Proofs.WellFormed

/-! Indices side by side do not disturb each other. Entries are numbered from zero in every
index, so a handle from one index nearly always has the number of some entry of another one;
what tells them apart is the owner. An index refuses the handle of an entry that it did not
make, and the refusal changes nothing and is not counted, so the operations that offer such
handles may as well be left out. What else is done to an index touches no other: in the end
each is where its own operations alone would have brought it, and they got the replies that
they would have got alone. -/

namespace HashJoin

/-! ### Refusals -/

namespace IndexOp

/-- Whether an entry is offered that an index with this owner did not make. -/
def isForeign (owner : Nat) : IndexOp → Bool
  | .mark e | .remove _ e => e.owner ≠ owner
  | .insert _ | .insertAll _ | .insertNew _ | .keying _ | .lookup _ | .probe _ | .clearHits | .scan ..
  | .summary | .config | .join .. | .unshare | .buckets | .removeBucket _ | .consume .. => false

end IndexOp

namespace Index

variable {ix : Index} {e : Handle} {k : Key}

/-! What is refused changes nothing and is not counted. -/

theorem mark_of_refused (h : (ix.mark e).answer = false) : ix.mark e = ⟨false, ix, 0⟩ := by
  rw [mark] at h ⊢
  split at h
  next => contradiction
  next hn => exact if_neg hn

theorem remove_of_refused (h : (ix.remove k e).answer = false) :
    ix.remove k e = ⟨false, ix, 0⟩ := by
  rw [remove] at h ⊢
  cases hb : ix.buckets.get? k with
  | none => rfl
  | some bucket =>
    rw [hb] at h
    dsimp only at h ⊢
    split at h
    next => contradiction
    next hn => exact if_neg hn

theorem removeBucket_of_refused (h : (ix.removeBucket k).answer = none) :
    ix.removeBucket k = ⟨none, ix, 0⟩ := by
  rw [removeBucket] at h ⊢
  cases hb : ix.buckets.get? k with
  | none => rfl
  | some bucket =>
    rw [hb] at h
    contradiction

theorem mark_foreign (h : e.owner ≠ ix.owner) : ix.mark e = ⟨false, ix, 0⟩ := by
  rw [mark]
  exact if_neg fun hlive => h ((ix.isLive_iff e).1 hlive).1

theorem remove_foreign (h : e.owner ≠ ix.owner) (k : Key) : ix.remove k e = ⟨false, ix, 0⟩ := by
  rw [remove]
  cases ix.buckets.get? k with
  | none => rfl
  | some bucket => exact if_neg fun hown => h hown.1

end Index

namespace AnyIndex

/-- The same kind of index, with another one inside. -/
def withCore : AnyIndex → Index → AnyIndex
  | base _, core => base core
  | shared ix, core => shared { ix with core }

theorem withCore_core (ix : AnyIndex) : ix.withCore ix.core = ix := by cases ix <;> rfl

theorem core_withCore (ix : AnyIndex) (core : Index) : (ix.withCore core).core = core := by
  cases ix <;> rfl

/-- The reply to an entry that is not removed; one that is not shared never removes entries. -/
def unremoved (ix : AnyIndex) : Reply := if ix.isShared then .flag false else .unavailable

variable {ix : AnyIndex} {e : Handle} {k : Key}

theorem perform_mark (ix : AnyIndex) (e : Handle) :
    ix.perform (.mark e) = (ix.core.mark e).map ix.withCore .flag := by
  cases ix <;> rfl

theorem perform_mark_refused (h : (ix.core.mark e).answer = false) :
    ix.perform (.mark e) = ⟨.flag false, ix, 0⟩ := by
  rw [perform_mark, Index.mark_of_refused h, Step.map, withCore_core]

theorem perform_remove_refused (h : (ix.core.remove k e).answer = false) :
    ix.perform (.remove k e) = ⟨ix.unremoved, ix, 0⟩ := by
  have hremove := Index.remove_of_refused h
  cases ix with
  | base ix => rfl
  | shared ix =>
    change ((ix.lift (ix.core.remove k e)).map id Reply.flag).map shared id = _
    rw [show ix.core.remove k e = ⟨false, ix.core, 0⟩ from hremove]
    rfl

theorem perform_mark_foreign (h : e.owner ≠ ix.core.owner) :
    ix.perform (.mark e) = ⟨.flag false, ix, 0⟩ :=
  perform_mark_refused (congrArg Step.answer (Index.mark_foreign h))

theorem perform_remove_foreign (h : e.owner ≠ ix.core.owner) (k : Key) :
    ix.perform (.remove k e) = ⟨ix.unremoved, ix, 0⟩ :=
  perform_remove_refused (congrArg Step.answer (Index.remove_foreign h k))

theorem run_cons_state (ix : AnyIndex) (op : IndexOp) (ops : List IndexOp) :
    (ix.run (op :: ops)).state = ((ix.perform op).state.run ops).state := rfl

theorem run_cons_answer (ix : AnyIndex) (op : IndexOp) (ops : List IndexOp) :
    (ix.run (op :: ops)).answer = (ix.perform op).answer :: ((ix.perform op).state.run ops).answer :=
  rfl

end AnyIndex

/-! ### One history as many -/

namespace Op

/-- What is asked of the index at a place. -/
def at? (place : Nat) : Op → Option IndexOp
  | .on place' op => if place' = place then some op else none
  | .openScan .. | .next _ | .rest _ | .openLazy .. | .nextLazy _ => none

theorem at?_eq_some {place : Nat} {op : Op} {indexOp : IndexOp} :
    op.at? place = some indexOp ↔ op = .on place indexOp := by
  cases op with
  | on place' op' =>
    rw [at?, Op.on.injEq]
    split
    next h => rw [Option.some.injEq, eq_true h, true_and]
    next h => simp [h]
  | openScan place' c | next c | rest c | openLazy place' c | nextLazy c => simp [at?]

theorem at?_eq_none {place : Nat} {op : Op} :
    op.at? place = none ↔ ∀ indexOp, op ≠ .on place indexOp := by
  rw [Option.eq_none_iff_forall_ne_some]
  exact forall_congr' fun indexOp => not_congr at?_eq_some

/-- Whether an index is offered an entry of another one. -/
def isForeign : Op → Bool
  | .on place op => op.isForeign place
  | .openScan .. | .next _ | .rest _ | .openLazy .. | .nextLazy _ => false

/-- What the operations ask of the index at a place. -/
def listAt (place : Nat) (ops : List Op) : List IndexOp := ops.filterMap (at? place)

/-- The replies to the operations of one kind. -/
def repliesTo (kind : Op → Bool) (ops : List Op) (replies : List Reply) : List Reply :=
  ((ops.zip replies).filter (kind ·.1)).map Prod.snd

theorem repliesTo_cons (kind : Op → Bool) (op : Op) (ops : List Op) (reply : Reply)
    (replies : List Reply) : repliesTo kind (op :: ops) (reply :: replies) =
      if kind op then reply :: repliesTo kind ops replies else repliesTo kind ops replies := by
  rw [repliesTo, List.zip_cons_cons, List.filter_cons]
  split <;> rfl

end Op

namespace Session

variable {specs : List IndexSpec} {s : Session}

theorem step_on_reply {place : Nat} {ix : AnyIndex} (hix : s.indices[place]? = some ix)
    (op : IndexOp) : (s.step (.on place op)).2 = (ix.perform op).answer := by
  simp only [step, hix]

theorem step_on_index {place : Nat} {ix : AnyIndex} (hix : s.indices[place]? = some ix)
    (op : IndexOp) :
    (s.step (.on place op)).1.indices[place]? = some (ix.perform op).state := by
  obtain ⟨hlt, -⟩ := List.getElem?_eq_some_iff.1 hix
  simp only [step, hix, List.getElem?_set_self hlt]

/-- A step of an index that changes nothing changes nothing of the session. -/
theorem step_on_eq {place : Nat} {ix : AnyIndex} {op : IndexOp} {reply : Reply}
    (hix : s.indices[place]? = some ix) (hop : ix.perform op = ⟨reply, ix, 0⟩) :
    s.step (.on place op) = (s, reply) := by
  obtain ⟨hlt, rfl⟩ := List.getElem?_eq_some_iff.1 hix
  simp only [step, hix, hop, List.set_getElem_self, Counters.add_zero]

/-- What the index inside does changes the session at one place. -/
theorem step_on_map {place : Nat} {ix : AnyIndex} {op : IndexOp} {α : Type} {inner : Step Index α}
    {onAnswer : α → Reply} (hix : s.indices[place]? = some ix)
    (hop : ix.perform op = inner.map ix.withCore onAnswer) :
    s.step (.on place op) = ({ s with
      indices := s.indices.set place (ix.withCore inner.state)
      counters := s.counters + inner.counters }, onAnswer inner.answer) := by
  simp only [step, hix, hop, Step.map]

theorem set_withCore_core {place : Nat} {ix : AnyIndex} (hix : s.indices[place]? = some ix) :
    s.indices.set place (ix.withCore ix.core) = s.indices := by
  obtain ⟨hlt, rfl⟩ := List.getElem?_eq_some_iff.1 hix
  rw [AnyIndex.withCore_core, List.set_getElem_self]

theorem MadeBy.step_mark_foreign (h : s.MadeBy specs) {place : Nat} {ix : AnyIndex} {e : Handle}
    (hix : s.indices[place]? = some ix) (he : e.owner ≠ place) :
    s.step (.on place (.mark e)) = (s, .flag false) := by
  obtain ⟨spec, -, hmade⟩ := h place ix hix
  exact step_on_eq hix (AnyIndex.perform_mark_foreign (hmade.owner ▸ he))

theorem MadeBy.step_remove_foreign (h : s.MadeBy specs) {place : Nat} {ix : AnyIndex} {e : Handle}
    (hix : s.indices[place]? = some ix) (he : e.owner ≠ place) (k : Key) :
    s.step (.on place (.remove k e)) = (s, ix.unremoved) := by
  obtain ⟨spec, -, hmade⟩ := h place ix hix
  exact step_on_eq hix (AnyIndex.perform_remove_foreign (hmade.owner ▸ he) k)

theorem MadeBy.step_foreign (h : s.MadeBy specs) {op : Op} (hop : op.isForeign = true) :
    (s.step op).1 = s := by
  cases op with
  | openScan place c | next c | rest c | openLazy place c | nextLazy c => contradiction
  | on place op =>
    cases hix : s.indices[place]? with
    | none => simp only [Session.step, hix]
    | some ix =>
      cases op with
      | mark e => rw [h.step_mark_foreign hix (of_decide_eq_true hop)]
      | remove k e => rw [h.step_remove_foreign hix (of_decide_eq_true hop)]
      | insert s | insertAll solutions | insertNew s | keying s | lookup k | probe s | clearHits
        | scan c limit | summary | config | join op probe | unshare | buckets | removeBucket k
        | consume op probe => contradiction

/-- Operations that offer entries of other indices may be left out. -/
theorem MadeBy.run_filter_foreign (h : s.MadeBy specs) (ops : List Op) :
    s.run (ops.filter (!·.isForeign)) =
      ((s.run ops).1, Op.repliesTo (!·.isForeign) ops (s.run ops).2) := by
  induction ops generalizing s with
  | nil => rfl
  | cons op ops ih =>
    rw [List.filter_cons, run_cons, Op.repliesTo_cons]
    cases hop : op.isForeign with
    | true =>
      rw [h.step_foreign hop]
      exact ih h
    | false =>
      simp only [Bool.not_false, if_true, run_cons]
      rw [ih (h.step op)]

/-- What is not asked of an index does not touch it. -/
theorem step_elsewhere {place : Nat} {op : Op} (s : Session) (hop : op.at? place = none) :
    (s.step op).1.indices[place]? = s.indices[place]? := by
  rcases s.step_at op place with ⟨-, hsame⟩ | ⟨ix, indexOp, rfl, -, -⟩
  · exact hsame
  · exact absurd rfl (Op.at?_eq_none.1 hop indexOp)

/-- Entries of other indices read as before. -/
theorem ledger_elsewhere {place : Nat} {op : Op} (s : Session) (hop : op.at? place = none) :
    (s.step op).1.ledger place = s.ledger place := by
  rw [ledger, ledger, s.step_elsewhere hop]

/-- A history takes each index where the operations on it would take it alone. -/
theorem run_at {place : Nat} {ix : AnyIndex} (hix : s.indices[place]? = some ix) (ops : List Op) :
    (s.run ops).1.indices[place]? = some (ix.run (Op.listAt place ops)).state ∧
      Op.repliesTo (fun op => (op.at? place).isSome) ops (s.run ops).2 =
        (ix.run (Op.listAt place ops)).answer := by
  induction ops generalizing s ix with
  | nil => exact ⟨hix, rfl⟩
  | cons op ops ih =>
    rw [run_cons, Op.repliesTo_cons, Op.listAt, List.filterMap_cons]
    cases hop : op.at? place with
    | none => exact ih ((s.step_elsewhere hop).trans hix)
    | some indexOp =>
      obtain rfl := Op.at?_eq_some.1 hop
      obtain ⟨hstate, hanswer⟩ := ih (step_on_index hix indexOp)
      rw [AnyIndex.run_cons_state, AnyIndex.run_cons_answer, step_on_reply hix]
      exact ⟨hstate, congrArg (_ :: ·) hanswer⟩

/-- At any time an index refuses the entries of others, which changes nothing and counts
nothing, so that a history without such offers ends in the same session. An operation leaves
all indices alone but the one that it is done on, and the entries of the others can be read as
before. So a whole history is to each index no more than the operations on it. -/
theorem run_independent (h : ofSpecs specs = .ok s) (ops : List Op) :
    let last := (s.run ops).1
    (∀ (place : Nat) (ix : AnyIndex) (e : Handle), last.indices[place]? = some ix →
      e.owner ≠ place →
        last.step (.on place (.mark e)) = (last, .flag false) ∧
        ∀ k, ix.core.remove k e = ⟨false, ix.core, 0⟩ ∧
          last.step (.on place (.remove k e)) = (last, ix.unremoved)) ∧
    s.run (ops.filter (!·.isForeign)) = (last, Op.repliesTo (!·.isForeign) ops (s.run ops).2) ∧
    (∀ (op : Op) (place : Nat), op.at? place = none →
      (last.step op).1.indices[place]? = last.indices[place]? ∧
      (∀ e : Handle, e.owner = place → entry? (last.step op).1 e = last.entry? e) ∧
      ∀ b : Snapshot, b.owner = place → (last.step op).1.entries b = last.entries b) ∧
    ∀ (place : Nat) (ix : AnyIndex), s.indices[place]? = some ix →
      last.indices[place]? = some (ix.run (Op.listAt place ops)).state ∧
      Op.repliesTo (fun op => (op.at? place).isSome) ops (s.run ops).2 =
        (ix.run (Op.listAt place ops)).answer := by
  have hmade := madeBy_of_ofSpecs h
  intro last
  have hlast : last.MadeBy specs := hmade.run ops
  refine ⟨fun place ix e hix he => ⟨hlast.step_mark_foreign hix he, fun k => ⟨?_, ?_⟩⟩,
    hmade.run_filter_foreign ops, fun op place hop => ⟨last.step_elsewhere hop, ?_, ?_⟩,
    fun place ix hix => run_at hix ops⟩
  · obtain ⟨spec, -, hix⟩ := hlast place ix hix
    exact Index.remove_foreign (hix.owner ▸ he) k
  · exact hlast.step_remove_foreign hix he k
  · rintro e rfl
    unfold entry?
    rw [last.ledger_elsewhere hop]
  · rintro b rfl
    rw [entries, entries, last.ledger_elsewhere hop]

/-- Both indices have an entry with the number zero and the same solution, and each is offered
that of the other, also after its own has been consumed. -/
theorem run_independent_same_number :
    let s := Solution.ofBindings [(⟨"x"⟩, .integer 1)]
    let k := Key.ofSlots [some (.integer 1)]
    let source := ConfigSource.ofSettings [.vars [⟨"x"⟩]]
    let specs : List IndexSpec := [⟨false, source, none⟩, ⟨true, source, some (.empty .arrival)⟩]
    let ops : List Op := [.on 0 (.insert s), .on 1 (.insert s), .on 1 (.mark ⟨0, 0⟩),
      .on 0 (.mark ⟨1, 0⟩), .on 1 (.remove k ⟨0, 0⟩), .on 1 (.consume .inner s),
      .on 0 (.remove k ⟨1, 0⟩), .openScan 1 .unmatched, .on 1 (.insert s), .rest 0]
    ∃ start, ofSpecs specs = .ok start ∧
      let last := (start.run ops).1
      last.entries ⟨0, [0]⟩ = [(0, { solution := s })] ∧
      last.entries ⟨1, [0]⟩ = [(0, { solution := s, hits := 1, live := false })] ∧
      (⟨0, 0⟩ : Handle).owner ≠ 1 ∧ last.step (.on 1 (.mark ⟨0, 0⟩)) = (last, .flag false) ∧
      start.run (ops.filter (!·.isForeign)) =
        (last, Op.repliesTo (!·.isForeign) ops (start.run ops).2) := by
  intro s k source specs ops
  have hmade : ∃ start, ofSpecs specs = .ok start ∧
      (start.run ops).1.entries ⟨0, [0]⟩ = [(0, { solution := s })] ∧
      (start.run ops).1.entries ⟨1, [0]⟩ = [(0, { solution := s, hits := 1, live := false })] ∧
      1 < (start.run ops).1.indices.length := by
    subst ops specs source k s
    exact ⟨_, rfl, by decide +kernel⟩
  obtain ⟨start, h, hfirst, hsecond, hlt⟩ := hmade
  obtain ⟨hrefused, hfiltered, -⟩ := run_independent h ops
  have hne : (⟨0, 0⟩ : Handle).owner ≠ 1 := by decide
  exact ⟨start, h, hfirst, hsecond, hne,
    (hrefused 1 _ ⟨0, 0⟩ (List.getElem?_eq_getElem hlt) hne).1, hfiltered⟩

end Session

end HashJoin
