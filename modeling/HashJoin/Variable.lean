/-! Query variables. A variable is a name without its sigil, so the texts `x`, `?x`
and `$x` all name the variable `x`. Variables are ordered by their names, one
Unicode scalar value after the other, and that order agrees with equality. -/

namespace HashJoin

structure Variable where
  name : String
  deriving DecidableEq

namespace Variable

/-- The variable that a text names: one leading `?` or `$` is a sigil and is dropped. -/
def ofText (text : String) : Variable :=
  match text.toList with
  | '?' :: rest => ⟨String.ofList rest⟩
  | '$' :: rest => ⟨String.ofList rest⟩
  | _ => ⟨text⟩

def isEmpty (v : Variable) : Bool := v.name = ""

instance : ToString Variable := ⟨fun v => "?" ++ v.name⟩

instance : Ord Variable := ⟨fun v w => compare v.name w.name⟩

instance : Std.TransOrd Variable where
  eq_swap {v w} := Std.OrientedOrd.eq_swap (a := v.name) (b := w.name)
  isLE_trans {_ _ _} h h' := Std.TransOrd.isLE_trans (α := String) h h'

instance : Std.LawfulEqOrd Variable where
  compare_self {v} := (Std.LawfulEqOrd.compare_eq_iff_eq.2 rfl : compare v.name v.name = .eq)
  eq_of_compare {v w} h := by
    cases v; cases w
    exact congrArg Variable.mk (Std.LawfulEqOrd.eq_of_compare (α := String) h)

end Variable

end HashJoin
