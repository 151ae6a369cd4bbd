import HashJoin.Json.Token
import Mathlib.Tactic.IntervalCases

/-! A text that was written from tokens is scanned into the same tokens. An escaped
character and a string are read up to the place where they end, whatever follows. So is
each token but a number, which goes on as long as digits do: an integer is read back if
a brace closes the object it stands in. -/

namespace HashJoin.Json

/-! ### Strings -/

theorem hexUnit?_of_lt {n : Nat} (h : n < 32) :
    hexUnit? '0' '0' (hexDigit (n / 16)) (hexDigit (n % 16)) = some n := by
  have hall : ∀ m : Fin 32,
      hexUnit? '0' '0' (hexDigit (m.val / 16)) (hexDigit (m.val % 16)) = some m.val := by decide
  exact hall ⟨n, h⟩

/-- A character is read as it was written. -/
theorem readPieces_escape (c : Char) (cs : List Char) :
    readPieces (escape c ++ cs) = (readPieces cs).map (Piece.char c).prepend := by
  by_cases hletter : c = '"' ∨ c = '\\' ∨ c = '\x08' ∨ c = '\x0c' ∨ c = '\n' ∨ c = '\r' ∨ c = '\t'
  · rcases hletter with rfl | rfl | rfl | rfl | rfl | rfl | rfl <;> rfl
  · simp only [not_or] at hletter
    obtain ⟨hquote, hslash, hrest⟩ := hletter
    by_cases hlow : c < ' '
    · -- written by its number, which is that of no half
      have hlt : c.toNat < 32 := hlow
      have hunit : Piece.ofUnit c.toNat = .char c := by
        rw [Piece.ofUnit, if_neg (by omega), Char.ofNat_toNat]
      have hescape : escape c =
          ['\\', 'u', '0', '0', hexDigit (c.toNat / 16), hexDigit (c.toNat % 16)] := by
        simp only [escape, hquote, hslash, hrest, hlow, if_true, if_false]
      rw [hescape]
      change readPieces ('\\' :: 'u' :: '0' :: '0' :: _ :: _ :: cs) = _
      rw [readPieces, hexUnit?_of_lt hlt, ← hunit]
    · have hescape : escape c = [c] := by
        simp only [escape, hquote, hslash, hrest, hlow, if_false]
      have hplain : ¬ (c < ' ' ∨ c = '\\') := not_or.2 ⟨hlow, hslash⟩
      rw [hescape, List.singleton_append, readPieces, if_neg hplain]
      · exact hquote
      · exact fun _ _ _ _ _ e => absurd e hslash
      · exact fun _ _ e => absurd e hslash

theorem readPieces_flatMap_escape (s rest : List Char) :
    readPieces (s.flatMap escape ++ '"' :: rest) = some (s.map .char, rest) := by
  induction s with
  | nil => rfl
  | cons c s ih =>
    rw [List.flatMap_cons, List.append_assoc, readPieces_escape, ih]
    rfl

theorem Piece.text?_map_char (s : List Char) : Piece.text? (s.map .char) = some s := by
  induction s with
  | nil => rfl
  | cons c s ih => rw [List.map_cons, Piece.text?, ih]; rfl

/-! ### Integers -/

namespace Numeral

theorem toNat_digitChar {d : Nat} (h : d < 10) : (Nat.digitChar d).toNat - 48 = d := by
  interval_cases d <;> rfl

theorem digitsOf_eq (n : Nat) :
    digitsOf n = if n < 10 then [n] else digitsOf (n / 10) ++ [n % 10] := by
  rw [digitsOf, Nat.toDigits_eq_if (by decide)]
  split
  next h => rw [List.map_singleton, toNat_digitChar h]
  next =>
    have hlast := toNat_digitChar (Nat.mod_lt n (by decide : 10 > 0))
    rw [List.map_append, List.map_singleton, hlast, digitsOf]

theorem value_append_digit (digits : List Nat) (d : Nat) :
    value (digits ++ [d]) = value digits * 10 + d := by
  rw [value, List.foldl_append]
  rfl

theorem value_digitsOf (n : Nat) : value (digitsOf n) = n := by
  induction n using Nat.strongRecOn with
  | ind n ih =>
    rw [digitsOf_eq]
    split
    next => exact Nat.zero_add n
    next h =>
      rw [value_append_digit, ih (n / 10) (by omega)]
      omega

theorem lt_of_mem_digitsOf {n d : Nat} (hd : d ∈ digitsOf n) : d < 10 := by
  induction n using Nat.strongRecOn with
  | ind n ih =>
    rw [digitsOf_eq] at hd
    split at hd
    next h => exact List.mem_singleton.1 hd ▸ h
    next h =>
      rcases List.mem_append.1 hd with hd | hd
      · exact ih (n / 10) (by omega) hd
      · rw [List.mem_singleton.1 hd]
        exact Nat.mod_lt n (by decide)

/-- A zero in front stands alone. -/
theorem exists_digitsOf (n : Nat) : ∃ d ds, digitsOf n = d :: ds ∧ (d = 0 → ds = []) := by
  induction n using Nat.strongRecOn with
  | ind n ih =>
    rw [digitsOf_eq]
    split
    next h => exact ⟨n, [], rfl, fun _ => rfl⟩
    next h =>
      obtain ⟨d, ds, he, hzero⟩ := ih (n / 10) (by omega)
      refine ⟨d, ds ++ [n % 10], by rw [he]; rfl, fun hd => ?_⟩
      have hv := value_digitsOf (n / 10)
      rw [he, hd, hzero hd] at hv
      change 0 = n / 10 at hv
      omega

theorem digitValue?_digitChar {d : Nat} (h : d < 10) : digitValue? (Nat.digitChar d) = some d := by
  interval_cases d <;> rfl

/-- Digits are read up to a character that is none. -/
theorem readDigits_digitsText {digits : List Nat} (h : ∀ d ∈ digits, d < 10) {c : Char}
    (hc : digitValue? c = none) (cs : List Char) :
    readDigits (digitsText digits ++ c :: cs) = (digits, c :: cs) := by
  induction digits with
  | nil => simp only [digitsText, List.map_nil, List.nil_append, readDigits, hc]
  | cons d digits ih =>
    obtain ⟨hd, hds⟩ := List.forall_mem_cons.1 h
    have ih := ih hds
    simp only [digitsText, List.map_cons, List.cons_append, readDigits, digitValue?_digitChar hd] at ih ⊢
    rw [ih]

theorem readWhole_digitsOf (n : Nat) {c : Char} (hc : digitValue? c = none) (cs : List Char) :
    readWhole (digitsText (digitsOf n) ++ c :: cs) = some (digitsOf n, c :: cs) := by
  obtain ⟨d, ds, he, hzero⟩ := exists_digitsOf n
  rw [readWhole, readDigits_digitsText (fun d => lt_of_mem_digitsOf) hc, he]
  cases d with
  | zero => rw [hzero rfl]; rfl
  | succ d => rfl

theorem text_ofInt (n : Int) :
    (ofInt n).text = (if n < 0 then ['-'] else []) ++ digitsText (digitsOf n.natAbs) := by
  simp [text, ofInt]

/-- An integer is read as it was written, if a brace follows. -/
theorem read_ofInt (n : Int) (cs : List Char) :
    read ((ofInt n).text ++ '}' :: cs) = some (ofInt n, '}' :: cs) := by
  have hunsigned : ∀ negative, readUnsigned negative (digitsText (digitsOf n.natAbs) ++ '}' :: cs) =
      some ({ negative, whole := digitsOf n.natAbs }, '}' :: cs) := by
    intro negative
    rw [readUnsigned, readWhole_digitsOf _ rfl]
    rfl
  rw [text_ofInt, ofInt]
  by_cases hn : n < 0
  · rw [if_pos hn, decide_eq_true hn]
    exact hunsigned true
  · rw [if_neg hn, decide_eq_false hn, List.nil_append, ← hunsigned false]
    -- the first digit is not taken for a sign
    obtain ⟨d, ds, he, -⟩ := exists_digitsOf n.natAbs
    have hd : d < 10 := lt_of_mem_digitsOf (he ▸ List.mem_cons_self)
    rw [he]
    interval_cases d <;> rfl

theorem toInt64?_ofInt (i : Int64) : toInt64? (ofInt i.toInt) = some i := by
  have hle := i.le_toInt
  have hlt := i.toInt_lt
  have hwhole : value (ofInt i.toInt).whole = i.toInt.natAbs := value_digitsOf _
  rw [toInt64?, hwhole, int64Bound, ofInt, if_neg (by simp)]
  dsimp only
  by_cases hn : i.toInt < 0
  · have habs : -(i.toInt.natAbs : Int) = i.toInt := by omega
    rw [if_pos (decide_eq_true hn), if_neg (by omega), habs, Int64.ofInt_toInt]
  · have habs : (i.toInt.natAbs : Int) = i.toInt := by omega
    rw [if_neg (by simpa using hn), if_neg (by omega), habs, Int64.ofInt_toInt]

end Numeral

namespace Token

/-- The tokens are found again in their text, whatever follows it. -/
def Scans (ts : List Token) : Prop := ∀ cs, scan (ts.flatMap text ++ cs) = ts ++ scan cs

theorem scan_render {ts : List Token} (h : Scans ts) : scan (render ts).toList = ts := by
  have hall := h []
  rw [List.append_nil, scan, List.append_nil] at hall
  rw [render, String.toList_ofList, hall]

theorem Scans.append {ts us : List Token} (h : Scans ts) (h' : Scans us) : Scans (ts ++ us) := by
  intro cs
  rw [List.flatMap_append, List.append_assoc, h, h', List.append_assoc]

theorem Scans.flatMap {α : Type} {xs : List α} {tokens : α → List Token}
    (h : ∀ x ∈ xs, Scans (tokens x)) : Scans (xs.flatMap tokens) := by
  induction xs with
  | nil => exact fun _ => rfl
  | cons x xs ih =>
    obtain ⟨hx, hxs⟩ := List.forall_mem_cons.1 h
    exact hx.append (ih hxs)

theorem scan_of_read {c : Char} {rest after : List Char} {t : Token} (hc : isBlank c = false)
    (h : read c rest = some (t, after)) : scan (c :: rest) = t :: scan after := by
  rw [scan, hc, if_neg Bool.false_ne_true]
  split
  next hn => rw [h] at hn; contradiction
  next hs =>
    rw [h, Option.some.injEq, Prod.mk.injEq] at hs
    obtain ⟨rfl, rfl⟩ := hs
    rfl

/-- Whether the text of the token shows where it ends. -/
def selfDelimiting : Token → Bool
  | number _ | string none | invalid => false
  | _ => true

theorem scan_string (s : String) (cs : List Char) :
    scan ((string (some s)).text ++ cs) = string (some s) :: scan cs := by
  have htext : (string (some s)).text ++ cs = '"' :: (s.toList.flatMap escape ++ '"' :: cs) := by
    simp [text, quote]
  have hread : read '"' (s.toList.flatMap escape ++ '"' :: cs) = some (string (some s), cs) := by
    simp only [read, readPieces_flatMap_escape, Option.map_some, Piece.text?_map_char,
      String.ofList_toList]
  rw [htext, scan_of_read rfl hread]

theorem scan_selfDelimiting {t : Token} (h : t.selfDelimiting) (cs : List Char) :
    scan (t.text ++ cs) = t :: scan cs := by
  cases t with
  | openList | closeList | openObject | closeObject | comma | colon | null =>
    exact scan_of_read rfl rfl
  | boolean value => cases value <;> exact scan_of_read rfl rfl
  | string value =>
    cases value with
    | none => contradiction
    | some s => exact scan_string s cs
  | number | invalid => contradiction

theorem Scans.of_selfDelimiting {ts : List Token} (h : ts.all selfDelimiting) : Scans ts := by
  rw [← List.flatMap_singleton' ts]
  refine .flatMap fun t ht cs => ?_
  rw [List.flatMap_singleton]
  exact scan_selfDelimiting (List.all_eq_true.1 h t ht) cs

/-- No other token begins as a numeral does. -/
theorem scan_numeral {c : Char} (hc : c = '-' ∨ Numeral.digitValue? c ≠ none)
    {rest after : List Char} {n : Numeral} (h : Numeral.read (c :: rest) = some (n, after)) :
    scan (c :: rest) = number n :: scan after := by
  have hnot {d : Char} (hd : d ≠ '-') (hv : Numeral.digitValue? d = none) : c ≠ d := by
    rintro rfl
    exact hc.elim hd (· hv)
  have hblank : isBlank c = false := by
    simp [isBlank, hnot (d := ' ') (by decide) rfl, hnot (d := '\n') (by decide) rfl,
      hnot (d := '\t') (by decide) rfl, hnot (d := '\r') (by decide) rfl]
  refine scan_of_read hblank ?_
  unfold read
  split
  case h_11 => rw [h]; rfl
  all_goals exact absurd rfl (hnot (by decide) rfl)

/-- A number ends where a brace follows. -/
theorem scans_integer (n : Int) : Scans [number (.ofInt n), closeObject] := by
  intro cs
  have htext : [number (.ofInt n), closeObject].flatMap text ++ cs =
      (Numeral.ofInt n).text ++ '}' :: cs := by
    simp [text]
  obtain ⟨c, rest, he, hc⟩ : ∃ c rest, (Numeral.ofInt n).text = c :: rest ∧
      (c = '-' ∨ Numeral.digitValue? c ≠ none) := by
    rw [Numeral.text_ofInt]
    obtain ⟨d, ds, hdigits, -⟩ := Numeral.exists_digitsOf n.natAbs
    have hd : d < 10 := Numeral.lt_of_mem_digitsOf (hdigits ▸ List.mem_cons_self)
    split
    next => exact ⟨_, _, rfl, .inl rfl⟩
    next =>
      rw [hdigits]
      exact ⟨_, _, rfl, .inr (by simp [Numeral.digitValue?_digitChar hd])⟩
  have hread := Numeral.read_ofInt n cs
  have hbrace : scan ('}' :: cs) = closeObject :: scan cs := scan_of_read rfl rfl
  rw [htext, he, List.cons_append]
  rw [he, List.cons_append] at hread
  rw [scan_numeral hc hread, hbrace]
  rfl

end Token

end HashJoin.Json
