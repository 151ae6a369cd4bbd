import HashJoin.Json.Codec
import HashJoin.Proofs.Validation

/-! A text does not get around the checks of a configuration. A reader goes through the
tokens from the left and takes join variables from one place only, a list of names that
stands in the text; what it gives is that list, if it is valid, or else the list's first
fault. No other error comes from a configuration, whatever is passed over in between. -/

namespace HashJoin

open JoinVariables

namespace Json

namespace Reader

variable {α β σ : Type} {all ts : List Token} {Reason : ConfigError → Prop}

/-- What a reader gives on tokens that end `all`: a value with a property, and tokens that end
`all` again; or an error for which there is a reason; or nothing, on malformed tokens. -/
def Gives (all : List Token) (Reason : ConfigError → Prop) (P : α → Prop) : Result α → Prop
  | .ok (a, ts) => P a ∧ ts <:+ all
  | .error (.invalid e) => Reason e
  | .error .malformed => True

theorem suffix_of_cons {t : Token} (h : t :: ts <:+ all) : ts <:+ all :=
  (List.suffix_cons t ts).trans h

theorem gives_fail {P : α → Prop} : Gives all Reason P fail := trivial

theorem Gives.andThen {P : α → Prop} {Q : β → Prop} {r : Result α} {next : α → Reader β}
    (h : Gives all Reason P r)
    (hnext : ∀ a ts, P a → ts <:+ all → Gives all Reason Q (next a ts)) :
    Gives all Reason Q (andThen r next) := by
  rcases r with (_ | _) | ⟨a, ts⟩
  · exact h
  · exact h
  · exact hnext a ts h.1 h.2

theorem Gives.endingWith {P : α → Prop} {r : Result α} (h : Gives all Reason P r)
    (close : Token) : Gives all Reason P (endingWith close r) := by
  rcases r with (_ | _) | ⟨a, _ | ⟨t, ts⟩⟩
  · exact h
  · exact h
  · exact gives_fail
  · rw [Reader.endingWith]
    split
    · exact ⟨h.1, suffix_of_cons h.2⟩
    · exact gives_fail

/-- The value given is the one that the result has. -/
theorem Gives.eq {P : α → Prop} {r : Result α} (h : Gives all Reason P r) :
    Gives all Reason (fun a => ∃ rest, r = .ok (a, rest)) r := by
  rcases r with (_ | _) | ⟨a, ts⟩
  · exact h
  · exact h
  · exact ⟨⟨ts, rfl⟩, h.2⟩

theorem gives_string (h : ts <:+ all) : Gives all Reason (fun _ => True) (string ts) := by
  unfold string
  split
  · exact ⟨trivial, suffix_of_cons h⟩
  · exact gives_fail

theorem gives_label {ofLabel? : String → Option α} (h : ts <:+ all) :
    Gives all Reason (fun _ => True) (label ofLabel? ts) := by
  unfold label
  split
  · split
    · exact ⟨trivial, suffix_of_cons h⟩
    · exact gives_fail
  · split
    · refine ⟨trivial, ?_⟩
      iterate 5 replace h := suffix_of_cons h
      exact h
    · exact gives_fail
  · exact gives_fail

theorem decode_eq_ok {read : Reader α} {text : String} {a : α} :
    decode read text = .ok a ↔ read (Token.scan text.toList) = .ok (a, []) := by
  unfold decode
  split <;> simp_all

theorem decode_eq_invalid {read : Reader α} {text : String} {e : ConfigError} :
    decode read text = .error (.invalid e) ↔
      read (Token.scan text.toList) = .error (.invalid e) := by
  unfold decode
  split <;> simp_all

/-! ### Lists and objects -/

section Items

variable {item : Reader α} (hitem : ∀ ts, ts <:+ all → Gives all Reason (fun _ => True) (item ts))

include hitem

theorem gives_moreItems (n : Nat) (h : ts <:+ all) :
    Gives all Reason (fun _ => True) (moreItems item n ts) := by
  fun_induction moreItems item n ts with
  | case1 n ts => exact ⟨trivial, suffix_of_cons h⟩
  | case2 n ts ih =>
    refine (hitem ts (suffix_of_cons h)).andThen fun a ts _ hts => ?_
    exact (ih ts hts).andThen fun _ _ _ hts => ⟨trivial, hts⟩
  | case3 => exact gives_fail

theorem gives_list (h : ts <:+ all) : Gives all Reason (fun _ => True) (list item ts) := by
  unfold list
  split
  · exact ⟨trivial, suffix_of_cons (suffix_of_cons h)⟩
  · refine (hitem _ (suffix_of_cons h)).andThen fun a ts _ hts => ?_
    exact (gives_moreItems hitem ts.length hts).andThen fun _ _ _ hts => ⟨trivial, hts⟩
  · exact gives_fail

end Items

section Members

variable {read : Option String → σ → Reader σ} {P : σ → Prop}
  (hread : ∀ name s ts, P s → .string name :: .colon :: ts <:+ all →
    Gives all Reason P (read name s ts))

include hread

theorem gives_member {s : σ} (hs : P s) (h : ts <:+ all) :
    Gives all Reason P (member read s ts) := by
  unfold member
  split
  · exact hread _ _ _ hs h
  · exact gives_fail

theorem gives_moreMembers (n : Nat) {s : σ} (hs : P s) (h : ts <:+ all) :
    Gives all Reason P (moreMembers read n s ts) := by
  induction n generalizing s ts with
  | zero =>
    unfold moreMembers
    split
    · exact ⟨hs, suffix_of_cons h⟩
    · contradiction
    · exact gives_fail
  | succ n ih =>
    unfold moreMembers
    split
    · exact ⟨hs, suffix_of_cons h⟩
    next heq =>
      cases heq
      exact (gives_member hread hs (suffix_of_cons h)).andThen fun s ts hs hts => ih hs hts
    · exact gives_fail

theorem gives_object {s : σ} (hs : P s) (h : ts <:+ all) :
    Gives all Reason P (object read s ts) := by
  unfold object
  split
  · exact ⟨hs, suffix_of_cons (suffix_of_cons h)⟩
  · refine (gives_member hread hs (suffix_of_cons h)).andThen fun s ts hs hts => ?_
    exact gives_moreMembers hread ts.length hs hts
  · exact gives_fail

end Members

theorem gives_skipTo (n : Nat) (h : ts <:+ all) :
    Gives all Reason (fun _ => True) (skipTo n ts) := by
  induction n generalizing ts with
  | zero =>
    unfold skipTo
    split
    case h_1 | h_2 => contradiction
    case h_3 | h_4 | h_5 | h_6 => exact ⟨trivial, suffix_of_cons h⟩
    case h_7 => exact gives_fail
  | succ n ih =>
    unfold skipTo
    split
    case h_1 heq =>
      cases heq
      exact (gives_list (fun ts hts => ih hts) h).andThen fun _ _ _ hts => ⟨trivial, hts⟩
    case h_2 heq =>
      cases heq
      exact gives_object
        (fun _ _ ts _ hts => ih (suffix_of_cons (suffix_of_cons hts))) trivial h
    case h_3 | h_4 | h_5 | h_6 => exact ⟨trivial, suffix_of_cons h⟩
    case h_7 => exact gives_fail

theorem gives_skip (h : ts <:+ all) : Gives all Reason (fun _ => True) (skip ts) :=
  gives_skipTo ts.length h

end Reader

open Reader

/-! ### Join variables and configurations -/

variable {all ts : List Token}

/-- A list of names stands at the front of the tokens. -/
def Spells (ts : List Token) (vars : List Variable) : Prop :=
  ∃ rest, Reader.list readVariable ts = .ok (vars, rest)

/-- The tokens begin where a configuration has its join variables: first in a list, or after the
name of their field. -/
def Holds (all ts : List Token) : Prop :=
  .openList :: ts = all ∨ .string (some "join_vars") :: .colon :: ts <:+ all

/-- A list of names stands in a place of the join variables. -/
def Lists (all : List Token) (vars : List Variable) : Prop :=
  ∃ ts, Holds all ts ∧ Spells ts vars

/-- A list in the place of the join variables has this fault. -/
def Faulty (all : List Token) (e : ConfigError) : Prop := ∃ vars, Lists all vars ∧ FirstFault vars e

theorem Holds.suffix (h : Holds all ts) : ts <:+ all := by
  rcases h with rfl | h
  · exact List.suffix_cons _ ts
  · exact suffix_of_cons (suffix_of_cons h)

theorem gives_variable {Reason : ConfigError → Prop} (h : ts <:+ all) :
    Gives all Reason (fun _ => True) (readVariable ts) :=
  (gives_string h).andThen fun _ _ _ hts => ⟨trivial, hts⟩

theorem gives_joinVariables (h : Holds all ts) :
    Gives all (Faulty all) (fun joinVariables => Lists all joinVariables.vars)
      (readJoinVariables ts) := by
  have hlist : Gives all (Faulty all) (Spells ts) (Reader.list readVariable ts) :=
    (gives_list (fun _ hts => gives_variable hts) h.suffix).eq
  refine hlist.andThen fun vars rest hspells hrest => ?_
  cases hof : JoinVariables.ofList vars with
  | error e => exact ⟨vars, ⟨ts, h, hspells⟩, ofList_eq_error.1 hof⟩
  | ok joinVariables =>
    cases ofList_eq_ok.1 hof
    exact ⟨⟨ts, h, hspells⟩, hrest⟩

/-- The fields read so far have join variables from the text only. -/
theorem gives_fields (name : Option String) (f : ConfigFields) (ts : List Token)
    (hf : ∀ joinVariables, f.joinVariables = some joinVariables → Lists all joinVariables.vars)
    (h : .string name :: .colon :: ts <:+ all) :
    Gives all (Faulty all)
      (fun f => ∀ joinVariables, f.joinVariables = some joinVariables →
        Lists all joinVariables.vars)
      (ConfigFields.read name f ts) := by
  have hts : ts <:+ all := suffix_of_cons (suffix_of_cons h)
  unfold ConfigFields.read
  split
  · split
    · exact gives_fail
    -- the only field that changes the join variables, and its value stands behind its name
    · refine (gives_joinVariables (.inr h)).andThen fun vars rest hvars hrest => ⟨?_, hrest⟩
      intro joinVariables heq
      cases heq
      exact hvars
  · split
    · exact gives_fail
    · exact (gives_label hts).andThen fun _ _ _ hrest => ⟨hf, hrest⟩
  · exact (gives_skip hts).andThen fun _ _ _ hrest => ⟨hf, hrest⟩
  · exact gives_fail

theorem gives_config (all : List Token) :
    Gives all (Faulty all) (fun c => Lists all c.joinVariables.vars) (readConfig all) := by
  unfold readConfig
  split
  next ts =>
    refine (gives_joinVariables (.inl rfl)).andThen fun joinVariables ts hvars hts => ?_
    split
    · exact ⟨hvars, suffix_of_cons hts⟩
    · refine ((gives_label (suffix_of_cons hts)).endingWith _).andThen fun policy ts _ hts => ?_
      exact ⟨hvars, hts⟩
    · exact gives_fail
  next =>
    refine (gives_object gives_fields (by rintro _ ⟨⟩) List.suffix_rfl).andThen ?_
    intro f ts hf hts
    cases hvars : f.joinVariables with
    | none => exact gives_fail
    | some joinVariables => exact ⟨hf joinVariables hvars, hts⟩

theorem readJoinVariables_eq_ok {joinVariables : JoinVariables} {rest : List Token} :
    readJoinVariables ts = .ok (joinVariables, rest) ↔
      Reader.list readVariable ts = .ok (joinVariables.vars, rest) := by
  unfold readJoinVariables Reader.andThen
  cases Reader.list readVariable ts with
  | error fault => simp
  | ok read =>
    obtain ⟨vars, rest'⟩ := read
    dsimp only
    rw [Except.ok.injEq, Prod.mk.injEq, eq_comm (a := vars), ← ofList_eq_ok]
    cases JoinVariables.ofList vars <;> simp

theorem readJoinVariables_eq_invalid {e : ConfigError} :
    readJoinVariables ts = .error (.invalid e) ↔ ∃ vars, Spells ts vars ∧ FirstFault vars e := by
  have hlist : Gives ts (fun _ => False) (fun _ => True) (Reader.list readVariable ts) :=
    gives_list (fun _ hts => gives_variable hts) List.suffix_rfl
  unfold readJoinVariables Reader.andThen Spells
  cases h : Reader.list readVariable ts with
  | error fault =>
    cases fault with
    | malformed => simp
    | invalid e' => rw [h] at hlist; exact hlist.elim
  | ok read =>
    obtain ⟨vars, rest⟩ := read
    simp only [Except.ok.injEq, Prod.mk.injEq, exists_and_left, exists_eq', and_true,
      exists_eq_left', ← ofList_eq_error]
    cases JoinVariables.ofList vars <;> simp

end Json

open Json SharedIndex.Setting

/-- Join variables are checked on every route. A list is accepted if it is valid, and as it is;
otherwise its leftmost fault is the error. Of the settings for an index the last of each sort
counts; the list is checked before the map is looked at. Texts give join variables that stand in
them and are valid, or an error of such a list. So there is no way to an invalid list. -/
theorem every_route_checked :
    (∀ vars,
      ((∃ joinVariables, ofList vars = .ok joinVariables) ↔ Valid vars) ∧
      (∀ joinVariables, ofList vars = .ok joinVariables ↔ joinVariables.vars = vars) ∧
      ∀ e, ofList vars = .error e ↔ FirstFault vars e) ∧
    (∀ owner settings,
      ((∃ ix, (SharedIndex.Draft.ofSettings settings).index owner = .ok ix) ↔
        ∃ vars map, last vars? settings = some vars ∧ Valid vars ∧
          last buckets? settings = some map ∧ map.size = 0) ∧
      (∀ ix, (SharedIndex.Draft.ofSettings settings).index owner = .ok ix ↔
        ∃ joinVariables map, last vars? settings = some joinVariables.vars ∧
          last buckets? settings = some map ∧ map.size = 0 ∧
          .ofIndex
            { owner, config := ⟨joinVariables, (last policy? settings).getD .reject⟩
              buckets := map } = ix) ∧
      ∀ e, (SharedIndex.Draft.ofSettings settings).index owner = .error e ↔
        last vars? settings = none ∧ e = .noVariables ∨
          ∃ vars, last vars? settings = some vars ∧
            (FirstFault vars e ∨ Valid vars ∧
              (last buckets? settings = none ∧ e = .noMap ∨
                ∃ map, last buckets? settings = some map ∧ map.size ≠ 0 ∧
                  e = .mapNotEmpty map.size))) ∧
    (∀ text,
      (∀ joinVariables, Reader.decode readJoinVariables text = .ok joinVariables ↔
        Reader.decode (Reader.list readVariable) text = .ok joinVariables.vars) ∧
      (∀ e, Reader.decode readJoinVariables text = .error (.invalid e) ↔
        ∃ vars, Spells (Token.scan text.toList) vars ∧ FirstFault vars e) ∧
      (∀ c, Reader.decode readConfig text = .ok c →
        Lists (Token.scan text.toList) c.joinVariables.vars) ∧
      ∀ e, Reader.decode readConfig text = .error (.invalid e) →
        Faulty (Token.scan text.toList) e) ∧
    ∀ joinVariables : JoinVariables, Valid joinVariables.vars := by
  refine ⟨fun vars => ⟨exists_ofList_eq_ok, fun _ => ofList_eq_ok, fun _ => ofList_eq_error⟩,
    fun owner settings => ⟨SharedIndex.Draft.exists_index_ofSettings,
      fun _ => SharedIndex.Draft.index_ofSettings_eq_ok,
      fun _ => SharedIndex.Draft.index_ofSettings_eq_error⟩,
    fun text => ⟨fun _ => ?_, fun _ => ?_, fun _ h => ?_, fun _ h => ?_⟩,
    valid⟩
  · rw [Reader.decode_eq_ok, Reader.decode_eq_ok, readJoinVariables_eq_ok]
  · rw [Reader.decode_eq_invalid, readJoinVariables_eq_invalid]
  · have hgives := gives_config (Token.scan text.toList)
    rw [Reader.decode_eq_ok.1 h] at hgives
    exact hgives.1
  · have hgives := gives_config (Token.scan text.toList)
    rw [Reader.decode_eq_invalid.1 h] at hgives
    exact hgives

/-- Settings whose first list, map and policy do not count, and a text with two faulty lists. -/
theorem every_route_checked_replaced :
    let x : Variable := ⟨"x"⟩
    let full := (Buckets.empty .arrival).ensure (.ofSlots [])
    let settings := [.config (.vars [x, x]), .buckets full, .config (.policy .index),
      .config (.vars [x]), .config (.indexUnbound false), .buckets (.empty .hashed)]
    let text := "\x7b\"more\":[\"\"],\"join_vars\":[\"x\",\"x\",\"\"]\x7d"
    (SharedIndex.Draft.ofSettings settings).index 0 =
        .ok (.new 0 ⟨⟨[x], by decide, by decide⟩, .reject⟩) ∧
      (SharedIndex.Draft.ofSettings (settings.take 3)).index 0 = .error (.repeatedVariable "x") ∧
      (SharedIndex.Draft.ofSettings (settings.take 5)).index 0 = .error (.mapNotEmpty 1) ∧
      Reader.decode readConfig text = .error (.invalid (.repeatedVariable "x")) ∧
      Faulty (Token.scan text.toList) (.repeatedVariable "x") := by
  intro x full settings text
  obtain ⟨-, hsettings, htexts, -⟩ := every_route_checked
  have hdecode : Reader.decode readConfig text = .error (.invalid (.repeatedVariable "x")) := by
    decide +kernel
  refine ⟨((hsettings 0 settings).2.1 _).2 ⟨⟨[x], _, _⟩, .empty .hashed, rfl, rfl, rfl, rfl⟩,
    ((hsettings 0 (settings.take 3)).2.2 _).2 (.inr ⟨[x, x], rfl, .inl ⟨1, rfl, by decide⟩⟩),
    ((hsettings 0 (settings.take 5)).2.2 _).2
      (.inr ⟨[x], rfl, .inr ⟨by decide, .inr ⟨full, rfl, by decide, rfl⟩⟩⟩),
    hdecode, (htexts text).2.2.2 _ hdecode⟩

end HashJoin
