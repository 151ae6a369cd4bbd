import HashJoin.Proofs.Log.Refinement

/-! What comes into an index and what goes out. The reply to an operation tells how many
entries were stored and how many were taken out, and in which of three ways. The log turns
over by just these numbers, so nothing that came in can be lost: it is stored, or some
operation has said that it took it out. -/

namespace HashJoin

/-- How many entries came in, and how many went out in each way that there is. -/
@[ext] structure Turnover where
  inserted : Nat := 0
  /-- Matched by a consuming probe. -/
  consumed : Nat := 0
  /-- Removed one by one. -/
  removed : Nat := 0
  /-- Removed with a whole bucket. -/
  taken : Nat := 0
  deriving DecidableEq

namespace Turnover

instance : Zero Turnover := ⟨{}⟩

instance : Add Turnover where
  add t u := {
    inserted := t.inserted + u.inserted
    consumed := t.consumed + u.consumed
    removed := t.removed + u.removed
    taken := t.taken + u.taken }

/-- All that went out. -/
def gone (t : Turnover) : Nat := t.consumed + t.removed + t.taken

variable (t u : Turnover)

@[simp] theorem inserted_add : (t + u).inserted = t.inserted + u.inserted := rfl
@[simp] theorem consumed_add : (t + u).consumed = t.consumed + u.consumed := rfl

@[simp] theorem gone_add : (t + u).gone = t.gone + u.gone := by
  change t.consumed + u.consumed + (t.removed + u.removed) + (t.taken + u.taken) = _
  rw [gone, gone]
  omega

end Turnover

namespace IndexOp

/-- What the reply to an operation tells about the entries. -/
def turnover : IndexOp → Reply → Turnover
  | .insert _, .entry (some _) => { inserted := 1 }
  | .insertAll _, .intake counts => { inserted := counts.stored }
  | .insertNew _, .flag true => { inserted := 1 }
  | .consume .., .matches found => { consumed := found.count }
  | .remove .., .flag true => { removed := 1 }
  | .removeBucket _, .bucket (some bucket) => { taken := bucket.ids.length }
  | _, _ => 0

theorem consumed_turnover_of_ne {op : IndexOp} (h : ∀ operator probe, op ≠ .consume operator probe)
    (reply : Reply) : (op.turnover reply).consumed = 0 := by
  unfold turnover
  split
  case h_4 => exact absurd rfl (h _ _)
  all_goals rfl

/-- What the replies to a list of operations tell, put together. -/
def turnovers (ops : List IndexOp) (replies : List Reply) : Turnover :=
  ((ops.zip replies).map fun p => p.1.turnover p.2).sum

theorem turnovers_cons (op : IndexOp) (ops : List IndexOp) (reply : Reply) (replies : List Reply) :
    turnovers (op :: ops) (reply :: replies) = op.turnover reply + turnovers ops replies := by
  rw [turnovers, List.zip_cons_cons, List.map_cons, List.sum_cons, ← turnovers]

end IndexOp

namespace Log

variable {l l' : Log}

/-- From `l` to `l'` the entries turn over as `t` says. -/
structure Turns (l l' : Log) (t : Turnover) : Prop where
  next : l'.next = l.next + t.inserted
  length : l'.records.length + t.gone = l.records.length + t.inserted

theorem Turns.refl (l : Log) : l.Turns l 0 := ⟨rfl, rfl⟩

theorem Turns.trans {l'' : Log} {t u : Turnover} (h : l.Turns l' t) (h' : l'.Turns l'' u) :
    l.Turns l'' (t + u) where
  next := by rw [h'.next, h.next, Turnover.inserted_add, Nat.add_assoc]
  length := by
    have := h.length
    have := h'.length
    rw [Turnover.inserted_add, Turnover.gone_add]
    omega

theorem turns_append (l : Log) (s : Solution) : l.Turns (l.append s) { inserted := 1 } where
  next := rfl
  length := by simp [append, Turnover.gone]

theorem turns_recount (l : Log) (hits : Record → Nat) : l.Turns (l.recount hits) 0 :=
  ⟨rfl, List.length_map _⟩

/-- What is deleted has gone out, in whatever way. -/
theorem turns_delete (l : Log) (p : Record → Bool) {t : Turnover} (hi : t.inserted = 0)
    (hg : t.gone = l.records.countP p) : l.Turns (l.delete p) t where
  next := by rw [hi]; rfl
  length := by
    rw [hi, hg, List.countP_eq_length_filter, Nat.add_comm, ← List.length_append]
    exact (List.filter_append_perm p l.records).length_eq

theorem turns_insert (l : Log) (s : Solution) :
    l.Turns (l.insert s) { inserted := if (l.config.keying s).isMissing then 0 else 1 } := by
  rw [insert]
  split
  next => exact Turns.refl l
  next => exact l.turns_append s

theorem turns_insertAll (l : Log) (solutions : List Solution) : l.Turns (l.insertAll solutions)
    { inserted := solutions.countP fun s => !(l.config.keying s).isMissing } := by
  induction solutions generalizing l with
  | nil => exact Turns.refl l
  | cons s solutions ih =>
    have hall := (l.turns_insert s).trans (ih (l.insert s))
    have hsum : ({ inserted := if (l.config.keying s).isMissing then 0 else 1 } : Turnover) +
        { inserted := solutions.countP fun t => !((l.insert s).config.keying t).isMissing } =
          { inserted := (s :: solutions).countP fun t => !(l.config.keying t).isMissing } := by
      rw [config_insert, List.countP_cons]
      refine Turnover.ext ?_ rfl rfl rfl
      rw [Turnover.inserted_add]
      cases (l.config.keying s).isMissing <;> simp [Nat.add_comm]
    rw [hsum] at hall
    exact hall

/-- Of different numbers one at most is the one looked for. -/
theorem countP_ownsUnder (hn : (l.records.map Record.id).Nodup) {k : Key} {h : Handle}
    (ho : l.ownsUnder k h = true) :
    l.records.countP (fun r => decide (r.id = h.id) && l.config.forms k r.solution) = 1 := by
  obtain ⟨-, hany⟩ := Bool.and_eq_true _ _ ▸ ho
  obtain ⟨r, hr, hid⟩ := List.any_eq_true.1 hany
  obtain ⟨hr, hk⟩ := mem_chain.1 hr
  have hcount : (l.records.map Record.id).count h.id = 1 :=
    List.count_eq_one_of_mem hn (of_decide_eq_true hid ▸ List.mem_map_of_mem hr)
  rw [List.count, List.countP_map] at hcount
  rw [← hcount]
  refine List.countP_congr fun r' hr' => ?_
  rw [Bool.and_eq_true, decide_eq_true_iff, Function.comp_apply, beq_iff_eq]
  refine ⟨And.left, fun hid' => ⟨hid', ?_⟩⟩
  have : r' = r := List.inj_on_of_nodup_map hn hr' hr (hid'.trans (of_decide_eq_true hid).symm)
  exact this ▸ Config.forms_iff.2 hk

/-- An operation turns the log over as its reply tells. -/
theorem turns_step {isShared : Bool} {op : IndexOp} {reply : Reply}
    (hn : (l.records.map Record.id).Nodup) (h : l.Allows isShared op reply) :
    l.Turns (l.step isShared op) (op.turnover reply) := by
  cases op with
  | insert s =>
    obtain rfl := h
    have hi := l.turns_insert s
    rw [step]
    cases hm : (l.config.keying s).isMissing <;> rw [hm] at hi <;> exact hi
  | insertAll solutions =>
    obtain rfl := h
    exact l.turns_insertAll solutions
  | insertNew s =>
    obtain rfl := h
    have hi := l.turns_insert s
    rw [step, insertNew]
    cases l.holds s with
    | true =>
      rw [Bool.not_true, Bool.and_false]
      exact Turns.refl l
    | false =>
      cases hm : (l.config.keying s).isMissing <;> rw [hm] at hi <;> exact hi
  | mark e =>
    rw [step, mark]
    split
    · exact l.turns_recount _
    · exact Turns.refl l
  | clearHits => exact l.turns_recount _
  | join op probe =>
    rw [step, join]
    split
    · exact l.turns_recount _
    · exact Turns.refl l
  | remove k e =>
    obtain rfl := h
    cases isShared with
    | false => exact Turns.refl l
    | true =>
      change l.Turns (l.remove k e) (IndexOp.turnover (.remove k e) (.flag (l.ownsUnder k e)))
      cases ho : l.ownsUnder k e with
      | false =>
        rw [remove_of_not_ownsUnder ho]
        exact Turns.refl l
      | true =>
        obtain ⟨howner, -⟩ := Bool.and_eq_true _ _ ▸ ho
        rw [remove, if_pos (of_decide_eq_true howner)]
        exact l.turns_delete _ rfl (countP_ownsUnder hn ho).symm
  | removeBucket k =>
    obtain rfl := h
    cases isShared with
    | false => exact Turns.refl l
    | true =>
      have hchain : l.records.countP (fun r => l.config.forms k r.solution) = (l.chain k).length :=
        List.countP_eq_length_filter
      rw [if_pos rfl, bucket?]
      split
      next hc => exact l.turns_delete _ rfl (by rw [hchain, hc]; rfl)
      next =>
        refine l.turns_delete _ rfl ?_
        rw [hchain, ← List.length_map Record.id]
        exact Nat.zero_add _
  | consume op probe =>
    obtain rfl := h
    cases isShared with
    | false => exact Turns.refl l
    | true =>
      refine l.turns_delete _ rfl ?_
      exact List.length_filterMap_eq_countP
  | keying s | lookup k | probe s | scan c limit | summary | config | unshare | buckets =>
    exact Turns.refl l

end Log

end HashJoin
