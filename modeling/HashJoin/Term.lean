import HashJoin.Variable
import HashJoin.Binary64.Text

/-! RDF terms, the values that variables are bound to. Terms are equal when they have
the same form: the literal `"1"` and the integer `1` differ, and doubles are equal when
their bits are. The order goes by kind of term first and by contents inside a kind. -/

namespace HashJoin

/-- A literal; in the order of its parts an absent datatype or language comes first. -/
structure Literal where
  lexical : String
  datatype : Option String := none
  language : Option String := none
  deriving DecidableEq

inductive Term where
  | iri (name : String)
  | blank (label : String)
  | literal (value : Literal)
  | integer (value : Int64)
  | double (value : Binary64)
  | boolean (value : Bool)
  deriving DecidableEq

namespace Literal

/-- By lexical form, then by datatype, then by language. -/
def order : Literal → Literal → Ordering :=
  compareLex (compareOn lexical) (compareLex (compareOn datatype) (compareOn language))

instance : Std.TransCmp order := by unfold order; infer_instance

instance : Ord Literal := ⟨order⟩

instance : Std.TransOrd Literal := inferInstanceAs (Std.TransCmp order)

instance : Std.LawfulEqOrd Literal where
  compare_self {a} := (Std.ReflCmp.compare_self : order a a = .eq)
  eq_of_compare {a b} h := by
    have ⟨lexical, h⟩ := compareLex_eq_eq.1 h
    have ⟨datatype, language⟩ := compareLex_eq_eq.1 h
    cases a; cases b
    simp_all [compareOn]

/-- The lexical form is quoted as it is; a language hides the datatype. -/
instance : ToString Literal where
  toString l := "\"" ++ l.lexical ++ "\"" ++
    match l.language, l.datatype with
    | some tag, _ => "@" ++ tag
    | none, some iri => "^^<" ++ iri ++ ">"
    | none, none => ""

end Literal

namespace Term

/-- The place of a term's kind among the kinds. -/
def rank : Term → Nat
  | iri _ => 0
  | blank _ => 1
  | literal _ => 2
  | integer _ => 3
  | double _ => 4
  | boolean _ => 5

/-- Terms of one kind are ordered by their contents, others by their kinds. -/
def order : Term → Term → Ordering
  | iri a, iri b => compare a b
  | blank a, blank b => compare a b
  | literal a, literal b => compare a b
  | integer a, integer b => compare a b
  | double a, double b => compare a b
  | boolean a, boolean b => compare a b
  | a, b => compare a.rank b.rank

theorem order_swap (a b : Term) : order a b = (order b a).swap := by
  cases a <;> cases b
  case iri.iri | blank.blank | literal.literal | integer.integer | double.double
    | boolean.boolean => exact Std.OrientedOrd.eq_swap
  all_goals rfl

instance : Std.TransCmp order where
  eq_swap := order_swap _ _
  isLE_trans {a b c} h h' := by
    cases a <;> cases b <;> (try contradiction) <;> cases c <;> (try contradiction)
    case iri.iri.iri | blank.blank.blank | literal.literal.literal | integer.integer.integer
      | double.double.double | boolean.boolean.boolean => exact Std.TransOrd.isLE_trans h h'
    all_goals rfl

instance : Std.LawfulEqCmp order where
  compare_self {a} := by cases a <;> simp [order]
  eq_of_compare {a b} h := by
    cases a <;> cases b
    case iri.iri | blank.blank | literal.literal | integer.integer | double.double
      | boolean.boolean => exact congrArg _ (Std.LawfulEqOrd.eq_of_compare h)
    all_goals contradiction

instance : Ord Term := ⟨order⟩

instance : Std.TransOrd Term := inferInstanceAs (Std.TransCmp order)

instance : Std.LawfulEqOrd Term := inferInstanceAs (Std.LawfulEqCmp order)

instance : ToString Term where
  toString
    | iri name => "<" ++ name ++ ">"
    | blank label => "_:" ++ label
    | literal value => toString value
    | integer value => toString value.toInt
    | double value => value.scientific
    | boolean value => toString value

end Term

end HashJoin
