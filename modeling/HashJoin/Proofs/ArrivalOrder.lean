import HashJoin.Proofs.FirstOccurrences
import HashJoin.Proofs.NestedLoop

/-! The order in which rows arrive. Other orders of the two sides fill the buckets in other
orders, give other numbers to the entries and let other ones of several equal rows survive.
What an operator gives out only comes in another order then: which rows pair up is a matter
of the rows, and of equal rows it makes no difference which of them is given out. -/

namespace HashJoin

variable {build build' probe probe' : List Solution}

namespace Config

variable (c : Config) (op : Operator)

theorem merges_perm (hb : build.Perm build') (hp : probe.Perm probe') :
    (c.merges op build probe).Perm (c.merges op build' probe') :=
  hp.flatMap fun p _ => (hb.filter (c.pairs op · p)).filterMap (·.merge? p)

theorem paired_perm (hb : build.Perm build') (hp : probe.Perm probe') :
    (c.paired op build probe).Perm (c.paired op build' probe') := by
  simp only [paired, hp.any_eq]
  exact hb.filter _

theorem unpaired_perm (hb : build.Perm build') (hp : probe.Perm probe') :
    (c.unpaired op build probe).Perm (c.unpaired op build' probe') := by
  simp only [unpaired, hp.any_eq]
  exact hb.filter _

end Config

namespace Operator

variable (op : Operator) (c : Config)

theorem mergedRows_perm (hb : build.Perm build') (hp : probe.Perm probe') :
    (op.mergedRows c build probe).Perm (op.mergedRows c build' probe') := by
  cases op with
  | inner | optional => exact c.merges_perm _ hb hp
  | semi | anti | minus | distinct => exact .refl _

theorem buildRows_perm (hb : build.Perm build') (hp : probe.Perm probe') :
    (op.buildRows c build probe).Perm (op.buildRows c build' probe') := by
  cases op with
  | optional | anti | minus => exact c.unpaired_perm _ hb hp
  | semi => exact c.paired_perm _ hb hp
  | inner | distinct => exact .refl _

/-- Whatever the order in which the rows of both sides arrive, an operator gives out the
same rows, each as often. -/
theorem evaluate_reordered (hb : build'.Perm build) (hp : probe'.Perm probe) :
    (op.evaluate c build' probe').output.Perm (op.evaluate c build probe).output := by
  by_cases h : op = .distinct
  · subst h
    rw [evaluate_distinct, evaluate_distinct, ← Listing.firsts_eq_eraseDups,
      ← Listing.firsts_eq_eraseDups]
    exact Listing.firsts_perm (hb.append hp)
  · have hrows := (op.mergedRows_perm (op.joinConfig c) hb hp).append
      (op.buildRows_perm (op.joinConfig c) hb hp)
    exact ((output_perm_rows c build' probe' h).trans hrows).trans
      (output_perm_rows c build probe h).symm

/-- Rows of both sides change places, and some of them leave the join variable unbound. -/
theorem evaluate_reordered_unbound :
    let one := Solution.ofBindings [(⟨"x"⟩, .integer 1)]
    let other := Solution.ofBindings [(⟨"y"⟩, .integer 2)]
    let c : Config := ⟨⟨[⟨"x"⟩], by decide, by decide⟩, .reject⟩
    [one, one, .empty].Perm [one, .empty, one] ∧ [other, one].Perm [one, other] ∧
      (optional.evaluate c [one, one, .empty] [other, one]).output.Perm
        (optional.evaluate c [one, .empty, one] [one, other]).output := by
  intro one other c
  have hb : [one, one, .empty].Perm [one, .empty, one] := (List.Perm.swap .empty one []).cons one
  have hp : [other, one].Perm [one, other] := List.Perm.swap one other []
  exact ⟨hb, hp, evaluate_reordered optional c hb hp⟩

end Operator

end HashJoin
