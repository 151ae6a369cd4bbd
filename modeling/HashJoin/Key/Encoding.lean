import HashJoin.Digest.Word
import HashJoin.Term

/-! Terms and slots as byte strings. Numbers take eight bytes, the lowest first; a text
is its UTF-8 bytes and a byte `0xff`, which no text contains; an optional part says
first whether it is there. So two lists of slots have the same bytes only when they are
the same list. -/

namespace HashJoin

/-- The value of one join variable in a key; `none` is an unbound variable, which comes
before every term. -/
abbrev Slot := Option Term

namespace Encoding

open Digest (wordBytes)

def text (s : String) : List UInt8 := s.toUTF8.data.toList ++ [0xff]

def optional (part : α → List UInt8) : Option α → List UInt8
  | none => wordBytes 0
  | some a => wordBytes 1 ++ part a

def literal (l : Literal) : List UInt8 :=
  text l.lexical ++ optional text l.datatype ++ optional text l.language

/-- One byte for the kind of term, then its contents. -/
def term (t : Term) : List UInt8 :=
  UInt8.ofNat t.rank :: match t with
    | .iri name => text name
    | .blank label => text label
    | .literal value => literal value
    | .integer value => wordBytes value.toUInt64.toNat
    | .double value => wordBytes value.bits.toNat
    | .boolean value => [if value then 1 else 0]

/-- The number of slots, then the slots. -/
def slots (ss : List Slot) : List UInt8 := wordBytes ss.length ++ ss.flatMap (optional term)

end Encoding

end HashJoin
