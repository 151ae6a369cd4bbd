import HashJoin.Key
import Mathlib.Algebra.Ring.Nat

/-! The bytes of a key tell the key. Its parts follow one another without any frame, yet each
of them marks where it ends: a number has eight bytes, a text ends at its byte `0xff`, which is
in no UTF-8 text, and what may be absent says first whether it is there. So the bytes can be
cut into parts in one way only, and no part can be taken for a part of another kind. -/

namespace HashJoin.Encoding

open Digest (lowBytes wordBytes)

variable {α : Type}

/-- What follows the bytes of a value has no say in where they end and in what they mean. -/
def PrefixCode (code : α → List UInt8) : Prop :=
  ∀ ⦃a b : α⦄ ⦃rest rest' : List UInt8⦄, code a ++ rest = code b ++ rest' → a = b ∧ rest = rest'

/-- No value has bytes that begin those of another. -/
theorem PrefixCode.eq_of_prefix {code : α → List UInt8} (h : PrefixCode code) {a b : α}
    (hab : code a <+: code b) : a = b := by
  obtain ⟨rest, hrest⟩ := hab
  have hwhole : code a ++ rest = code b ++ [] := by rw [hrest, List.append_nil]
  exact (h hwhole).1

/-! ### Numbers -/

theorem length_lowBytes (n value : Nat) : (lowBytes n value).length = n := by
  induction n generalizing value with
  | zero => rfl
  | succ n ih => rw [lowBytes, List.length_cons, ih]

/-- The lowest bytes tell numbers apart that have no others. -/
theorem lowBytes_inj {n v w : Nat} (hv : v < 256 ^ n) (hw : w < 256 ^ n)
    (h : lowBytes n v = lowBytes n w) : v = w := by
  induction n generalizing v w with
  | zero => omega
  | succ n ih =>
    obtain ⟨hlow, hhigh⟩ := List.cons.inj h
    have hquotient : v / 256 = w / 256 :=
      ih (Nat.div_lt_of_lt_mul (by omega)) (Nat.div_lt_of_lt_mul (by omega)) hhigh
    have hremainder : v % 256 = w % 256 := by
      have hbyte := congrArg UInt8.toNat hlow
      rwa [UInt8.toNat_ofNat', UInt8.toNat_ofNat'] at hbyte
    omega

theorem wordBytes_append_inj {v w : Nat} (hv : v < 2 ^ 64) (hw : w < 2 ^ 64)
    {rest rest' : List UInt8} (h : wordBytes v ++ rest = wordBytes w ++ rest') :
    v = w ∧ rest = rest' := by
  have hlength : (wordBytes v).length = (wordBytes w).length :=
    (length_lowBytes 8 v).trans (length_lowBytes 8 w).symm
  obtain ⟨hbytes, hrest⟩ := List.append_inj h hlength
  exact ⟨lowBytes_inj hv hw hbytes, hrest⟩

theorem prefixCode_word {number : α → UInt64} (h : ∀ a b, number a = number b → a = b) :
    PrefixCode fun a => wordBytes (number a).toNat := by
  intro a b rest rest' hbytes
  obtain ⟨hnumber, hrest⟩ :=
    wordBytes_append_inj (number a).toNat_lt (number b).toNat_lt hbytes
  exact ⟨h a b (UInt64.toNat_inj.1 hnumber), hrest⟩

theorem prefixCode_integer : PrefixCode fun i : Int64 => wordBytes i.toUInt64.toNat :=
  prefixCode_word fun i j h => by cases i; cases j; exact congrArg Int64.ofUInt64 h

theorem prefixCode_double : PrefixCode fun x : Binary64 => wordBytes x.bits.toNat :=
  prefixCode_word fun x y h => by cases x; cases y; exact congrArg Binary64.mk h

/-! ### Texts -/

/-- The first byte of a character is at most `0xf7`, and the others are at most `0xbf`. -/
theorem toNat_lt_of_mem_utf8EncodeChar {c : Char} {b : UInt8} (h : b ∈ String.utf8EncodeChar c) :
    b.toNat < 0xff := by
  have hall : ∀ b ∈ String.utf8EncodeChar c, b.toNat < 0xff := by
    fun_cases String.utf8EncodeChar c
    all_goals simp only [List.forall_mem_cons, UInt8.toNat_ofNat']
    all_goals grind
  exact hall b h

/-- The byte at the end of a text is nowhere in it. -/
theorem mark_not_mem_utf8 (s : String) : 0xff ∉ s.toUTF8.data.toList := by
  obtain ⟨chars, hchars⟩ := s.isValidUTF8
  rw [String.toUTF8_eq_toByteArray, hchars, List.utf8Encode, List.toList_data_toByteArray,
    List.mem_flatMap]
  rintro ⟨c, -, hc⟩
  exact absurd (toNat_lt_of_mem_utf8EncodeChar hc) (by decide)

theorem takeWhile_mark {mark : UInt8} {as : List UInt8} (h : mark ∉ as) (rest : List UInt8) :
    (as ++ mark :: rest).takeWhile (· ≠ mark) = as := by
  have hpass : ∀ b ∈ as, decide (b ≠ mark) = true := fun b hb =>
    decide_eq_true fun hmark => h (hmark ▸ hb)
  rw [List.takeWhile_append_of_pos hpass, List.takeWhile_cons_of_neg (by simp), List.append_nil]

/-- Two lists that go on after a mark which stands in neither. -/
theorem append_mark_inj {mark : UInt8} {as bs rest rest' : List UInt8} (ha : mark ∉ as)
    (hb : mark ∉ bs) (h : as ++ mark :: rest = bs ++ mark :: rest') : as = bs ∧ rest = rest' := by
  have hbefore : as = bs := by rw [← takeWhile_mark ha rest, h, takeWhile_mark hb rest']
  subst hbefore
  exact ⟨rfl, (List.cons.inj (List.append_cancel_left h)).2⟩

theorem prefixCode_text : PrefixCode text := by
  intro s t rest rest' h
  simp only [text, List.append_assoc, List.singleton_append] at h
  obtain ⟨hbytes, hrest⟩ := append_mark_inj (mark_not_mem_utf8 s) (mark_not_mem_utf8 t) h
  have harrays : s.toUTF8 = t.toUTF8 := ByteArray.ext (Array.toList_inj.1 hbytes)
  exact ⟨String.toByteArray_inj.1 harrays, hrest⟩

/-! ### Terms -/

/-- A part says whether it is there before it says anything else. -/
theorem PrefixCode.optional {part : α → List UInt8} (h : PrefixCode part) :
    PrefixCode (optional part) := by
  intro a b rest rest' hbytes
  cases a <;> cases b <;> simp only [Encoding.optional, List.append_assoc] at hbytes
  case none.none => exact ⟨rfl, List.append_cancel_left hbytes⟩
  case some.some a b =>
    obtain ⟨rfl, hrest⟩ := h (List.append_cancel_left hbytes)
    exact ⟨rfl, hrest⟩
  case none.some | some.none =>
    exact absurd (wordBytes_append_inj (by decide) (by decide) hbytes).1 (by decide)

theorem prefixCode_literal : PrefixCode literal := by
  intro l m rest rest' h
  simp only [literal, List.append_assoc] at h
  obtain ⟨hlexical, h⟩ := prefixCode_text h
  obtain ⟨hdatatype, h⟩ := prefixCode_text.optional h
  obtain ⟨hlanguage, hrest⟩ := prefixCode_text.optional h
  cases l; cases m
  simp only at hlexical hdatatype hlanguage
  subst hlexical hdatatype hlanguage
  exact ⟨rfl, hrest⟩

theorem rank_lt (t : Term) : t.rank < 256 := by
  cases t <;> simp [Term.rank]

/-- The first byte of a term tells its kind. -/
theorem rank_eq_of_term_append {a b : Term} {rest rest' : List UInt8}
    (h : term a ++ rest = term b ++ rest') : a.rank = b.rank := by
  have hbyte := congrArg UInt8.toNat (List.cons.inj h).1
  rw [UInt8.toNat_ofNat', UInt8.toNat_ofNat'] at hbyte
  have ha := rank_lt a
  have hb := rank_lt b
  omega

/-- Terms of one kind are told apart by their contents, which are read in one way only. -/
theorem prefixCode_term : PrefixCode term := by
  intro a b rest rest' h
  have hrank := rank_eq_of_term_append h
  have hcontents := (List.cons.inj h).2
  cases a <;> cases b
  case iri.iri s t =>
    obtain ⟨rfl, hrest⟩ := prefixCode_text hcontents
    exact ⟨rfl, hrest⟩
  case blank.blank s t =>
    obtain ⟨rfl, hrest⟩ := prefixCode_text hcontents
    exact ⟨rfl, hrest⟩
  case literal.literal l m =>
    obtain ⟨rfl, hrest⟩ := prefixCode_literal hcontents
    exact ⟨rfl, hrest⟩
  case integer.integer i j =>
    obtain ⟨rfl, hrest⟩ := prefixCode_integer hcontents
    exact ⟨rfl, hrest⟩
  case double.double x y =>
    obtain ⟨rfl, hrest⟩ := prefixCode_double hcontents
    exact ⟨rfl, hrest⟩
  case boolean.boolean p q =>
    obtain ⟨hbyte, hrest⟩ := List.cons.inj hcontents
    exact ⟨by cases p <;> cases q <;> simp_all, hrest⟩
  all_goals exact absurd hrank (by simp [Term.rank])

/-! ### Keys -/

/-- Equally many values that follow one another. -/
theorem PrefixCode.flatMap {code : α → List UInt8} (h : PrefixCode code) {as bs : List α}
    (hlength : as.length = bs.length) (hbytes : as.flatMap code = bs.flatMap code) : as = bs := by
  induction as generalizing bs with
  | nil => exact (List.eq_nil_of_length_eq_zero hlength.symm).symm
  | cons a as ih =>
    cases bs with
    | nil => contradiction
    | cons b bs =>
      obtain ⟨hab, hrest⟩ := h hbytes
      rw [hab, ih (Nat.succ.inj hlength) hrest]

/-- A key is told by the bytes that its digest is taken of: two keys have the same bytes just when
they have the same slots. Nor do the bytes of one term begin those of another. -/
theorem slots_inj_prefixFree (k l : Key) (hk : k.size < 2 ^ 64) (hl : l.size < 2 ^ 64) :
    (slots k.slots = slots l.slots ↔ k.slots = l.slots) ∧
      ∀ a b : Term, term a <+: term b → a = b := by
  refine ⟨⟨fun h => ?_, fun h => congrArg slots h⟩, fun a b => prefixCode_term.eq_of_prefix⟩
  obtain ⟨hlength, hbytes⟩ := wordBytes_append_inj hk hl h
  exact prefixCode_term.optional.flatMap hlength hbytes

/-- A text as the datatype of a literal or as its language, and a name that goes on. -/
theorem slots_inj_prefixFree_literals :
    let typed := Key.ofSlots [some (.literal ⟨"chat", some "fr", none⟩), none]
    let tagged := Key.ofSlots [some (.literal ⟨"chat", none, some "fr"⟩), none]
    typed.size < 2 ^ 64 ∧ tagged.size < 2 ^ 64 ∧ slots typed.slots ≠ slots tagged.slots ∧
      ¬ term (.iri "a") <+: term (.iri "ab") := by
  intro typed tagged
  have htyped : typed.size < 2 ^ 64 := by decide
  have htagged : tagged.size < 2 ^ 64 := by decide
  obtain ⟨heq, hpre⟩ := slots_inj_prefixFree typed tagged htyped htagged
  exact ⟨htyped, htagged, fun h => absurd (heq.1 h) (by decide),
    fun h => absurd (hpre _ _ h) (by decide)⟩

end HashJoin.Encoding
