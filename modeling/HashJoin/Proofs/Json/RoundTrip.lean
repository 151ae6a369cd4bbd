import HashJoin.Json.Codec
import HashJoin.Proofs.Json.Scanning

/-! Values are read back from their texts. A value is written as tokens and read from
tokens; each reader takes the tokens of a value, whatever follows them, and the text of
the tokens is scanned into the tokens. Bindings are inserted one by one when they are
read, and join variables are checked again; neither changes what was written. Doubles
are left out: those that are not finite have no text of their own. -/

namespace HashJoin

def Term.isDouble : Term → Bool
  | .double _ => true
  | _ => false

def Solution.hasDouble (s : Solution) : Bool := s.bindings.any fun b => b.2.isDouble

theorem Solution.isDouble_of_mem {s : Solution} (h : s.hasDouble = false) {b : Binding}
    (hb : b ∈ s.bindings) : b.2.isDouble = false := by
  simpa using List.any_eq_false.1 h b hb

namespace Json

namespace Reader

variable {α β σ : Type}

/-- A value is read from its tokens, whatever follows them. -/
def Reads (read : Reader α) (ts : List Token) (a : α) : Prop :=
  ∀ rest, read (ts ++ rest) = .ok (a, rest)

theorem decode_render {read : Reader α} {ts : List Token} {a : α} (hscan : Token.Scans ts)
    (hread : Reads read ts a) : decode read (Token.render ts) = .ok a := by
  have hall := hread []
  rw [List.append_nil] at hall
  rw [decode, Token.scan_render hscan, hall]

theorem Reads.endingWith {read : Reader α} {ts : List Token} {a : α} (h : Reads read ts a)
    (close : Token) (rest : List Token) :
    endingWith close (read (ts ++ close :: rest)) = .ok (a, rest) := by
  rw [h]
  exact if_pos rfl

theorem reads_optionalString (o : Option String) : Reads optionalString (optionalTokens o) o := by
  intro rest
  cases o <;> rfl

theorem reads_moreItems {item : Reader α} {tokens : α → List Token} {as : List α}
    (h : ∀ a ∈ as, Reads item (tokens a) a) {n : Nat} (hn : as.length ≤ n) :
    Reads (moreItems item n) ((as.map tokens).flatMap (.comma :: ·) ++ [.closeList]) as := by
  intro rest
  induction as generalizing n with
  | nil => cases n <;> rfl
  | cons a as ih =>
    obtain ⟨ha, has⟩ := List.forall_mem_cons.1 h
    cases n with
    | zero => contradiction
    | succ n =>
      have ih := ih has (Nat.le_of_succ_le_succ hn)
      simp only [List.map_cons, List.flatMap_cons, List.append_assoc, List.cons_append] at ih ⊢
      rw [moreItems, ha]
      simp only [andThen, ih]

theorem length_le_moreItems (items : List (List Token)) :
    items.length ≤ (items.flatMap (.comma :: ·)).length := by
  induction items with
  | nil => exact Nat.le_refl 0
  | cons item items ih =>
    simp only [List.flatMap_cons, List.length_append, List.length_cons]
    omega

/-- A list is read where no item begins with its end. -/
theorem reads_list {item : Reader α} {tokens : α → List Token} {as : List α}
    (hclose : ∀ ts r, item (.closeList :: ts) ≠ .ok r) (h : ∀ a ∈ as, Reads item (tokens a) a) :
    Reads (list item) (listTokens (as.map tokens)) as := by
  intro rest
  cases as with
  | nil => rfl
  | cons a as =>
    obtain ⟨ha, has⟩ := List.forall_mem_cons.1 h
    let more := (as.map tokens).flatMap (.comma :: ·) ++ [.closeList] ++ rest
    have htokens : listTokens ((a :: as).map tokens) ++ rest = .openList :: (tokens a ++ more) := by
      simp only [listTokens, List.map_cons, more, List.append_assoc, List.cons_append]
    have hitem : item (tokens a ++ more) = .ok (a, more) := ha more
    have hmore : moreItems item more.length more = .ok (as, rest) := by
      refine reads_moreItems has ?_ rest
      have hle := length_le_moreItems (as.map tokens)
      rw [List.length_map] at hle
      simp only [more, List.length_append]
      omega
    rw [htokens]
    -- Only that the item is read tells that its tokens are not the end of the list.
    generalize tokens a ++ more = ts at hitem
    rw [list]
    · simp only [andThen, hitem, hmore]
    · rintro us rfl
      exact hclose us _ hitem

end Reader

open Reader

/-! ### Values of each type -/

theorem reads_variable (v : Variable) : Reads readVariable (variableTokens v) v := fun _ => rfl

theorem reads_literal (l : Literal) : Reads readLiteral (literalTokens l) l := by
  intro rest
  simp [literalTokens, readLiteral, object, member, moreMembers, andThen, LiteralFields.read,
    Reader.string, reads_optionalString l.datatype _, reads_optionalString l.language _]

theorem reads_integer (i : Int64) : Reads readInteger [.number (.ofInt i.toInt)] i := by
  intro rest
  rw [List.singleton_append, readInteger, Numeral.toInt64?_ofInt]

theorem reads_kind {kind : String} {value : List Token} {t : Term}
    (h : Reads (readTermOf kind) value t) :
    Reads readTerm ([.openObject, .string (some kind), .colon] ++ value ++ [.closeObject]) t := by
  intro rest
  simp only [List.cons_append, List.nil_append, List.append_assoc, readTerm]
  exact h.endingWith .closeObject rest

theorem reads_term {t : Term} (h : t.isDouble = false) : Reads readTerm (termTokens t) t := by
  cases t with
  | iri s => exact reads_kind fun rest => rfl
  | blank s => exact reads_kind fun rest => rfl
  | literal l =>
    refine reads_kind fun rest => ?_
    simp only [readTermOf, reads_literal l _, andThen]
  | integer i =>
    refine reads_kind fun rest => ?_
    simp only [readTermOf, reads_integer i _, andThen]
  | double x => contradiction
  | boolean b => exact reads_kind fun rest => rfl

theorem reads_binding {b : Binding} (h : b.2.isDouble = false) :
    Reads readBinding (bindingTokens b) b := by
  intro rest
  have hterm := (reads_term h).endingWith .closeList rest
  have hvar := (reads_variable b.1).endingWith .comma (termTokens b.2 ++ .closeList :: rest)
  have htokens : bindingTokens b ++ rest = .openList ::
      (variableTokens b.1 ++ .comma :: (termTokens b.2 ++ .closeList :: rest)) := by
    simp [bindingTokens, listTokens]
  rw [htokens, readBinding]
  simp only [hvar, hterm, andThen]

theorem reads_solution {s : Solution} (h : s.hasDouble = false) :
    Reads readSolution (solutionTokens s) s := by
  intro rest
  have hlist : Reads (list readBinding) (solutionTokens s) s.bindings :=
    reads_list (fun _ _ => nofun) fun b hb => reads_binding (Solution.isDouble_of_mem h hb)
  rw [readSolution, hlist]
  simp only [andThen, Solution.ofBindings_bindings]

theorem reads_joinVariables (vars : JoinVariables) :
    Reads readJoinVariables (joinVariablesTokens vars) vars := by
  intro rest
  have hlist : Reads (list readVariable) (joinVariablesTokens vars) vars.vars :=
    reads_list (fun _ _ => nofun) fun v _ => reads_variable v
  rw [readJoinVariables, hlist]
  simp only [andThen, JoinVariables.ofList_vars]

theorem reads_policy (policy : KeyPolicy) : Reads readPolicy (policyTokens policy) policy := by
  intro rest
  cases policy <;> rfl

theorem reads_config (c : Config) : Reads readConfig (configTokens c) c := by
  intro rest
  simp [configTokens, readConfig, object, member, moreMembers, andThen, ConfigFields.read,
    reads_joinVariables c.joinVariables _, reads_policy c.policy _]

/-! ### Texts of values -/

open Token (Scans)

theorem scans_variable (v : Variable) : Scans (variableTokens v) := .of_selfDelimiting rfl

theorem scans_list {items : List (List Token)} (h : ∀ item ∈ items, Scans item) :
    Scans (listTokens items) := by
  cases items with
  | nil => exact .of_selfDelimiting rfl
  | cons item items =>
    obtain ⟨hitem, hitems⟩ := List.forall_mem_cons.1 h
    have hopen : Scans [.openList] := .of_selfDelimiting rfl
    have hclose : Scans [.closeList] := .of_selfDelimiting rfl
    have hmore : Scans (items.flatMap (.comma :: ·)) := .flatMap fun item hm =>
      (Scans.of_selfDelimiting rfl : Scans [.comma]).append (hitems item hm)
    exact ((hopen.append hitem).append hmore).append hclose

theorem scans_literal (l : Literal) : Scans (literalTokens l) := by
  refine .of_selfDelimiting ?_
  obtain ⟨lexical, datatype, language⟩ := l
  cases datatype <;> cases language <;> rfl

theorem scans_term {t : Term} (h : t.isDouble = false) : Scans (termTokens t) := by
  have hclose : Scans [.closeObject] := .of_selfDelimiting rfl
  cases t with
  | iri | blank | boolean => exact .of_selfDelimiting rfl
  | literal l =>
    have hkind : Scans [.openObject, .string (some "literal"), .colon] := .of_selfDelimiting rfl
    exact (hkind.append (scans_literal l)).append hclose
  | integer i =>
    have hkind : Scans [.openObject, .string (some "integer"), .colon] := .of_selfDelimiting rfl
    exact hkind.append (Token.scans_integer i.toInt)
  | double => contradiction

theorem scans_binding {b : Binding} (h : b.2.isDouble = false) : Scans (bindingTokens b) := by
  refine scans_list (List.forall_mem_cons.2 ⟨scans_variable b.1, ?_⟩)
  exact List.forall_mem_singleton.2 (scans_term h)

theorem scans_solution {s : Solution} (h : s.hasDouble = false) : Scans (solutionTokens s) :=
  scans_list <| List.forall_mem_map.2 fun _ hb => scans_binding (Solution.isDouble_of_mem h hb)

theorem scans_joinVariables (vars : JoinVariables) : Scans (joinVariablesTokens vars) :=
  scans_list <| List.forall_mem_map.2 fun v _ => scans_variable v

theorem scans_config (c : Config) : Scans (configTokens c) := by
  have hopen : Scans [.openObject, .string (some "join_vars"), .colon] := .of_selfDelimiting rfl
  have hpolicy : Scans ([.comma, .string (some "unbound"), .colon] ++ policyTokens c.policy
      ++ [.closeObject]) := .of_selfDelimiting rfl
  have hall := (hopen.append (scans_joinVariables c.joinVariables)).append hpolicy
  simpa only [configTokens, List.append_assoc] using hall

/-! ### Round trips -/

/-- Values with a property are read back from their texts, so no two of them have the same text. -/
structure RoundTrips {α : Type} (read : Reader α) (tokens : α → List Token) (P : α → Prop) :
    Prop where
  decode_render : ∀ a, P a → Reader.decode read (Token.render (tokens a)) = .ok a
  eq_of_render_eq : ∀ a b, P a → P b → Token.render (tokens a) = Token.render (tokens b) → a = b

theorem RoundTrips.of_reads {α : Type} {read : Reader α} {tokens : α → List Token} {P : α → Prop}
    (hscan : ∀ a, P a → Scans (tokens a)) (hread : ∀ a, P a → Reads read (tokens a) a) :
    RoundTrips read tokens P := by
  have hdecode : ∀ a, P a → Reader.decode read (Token.render (tokens a)) = .ok a :=
    fun a h => Reader.decode_render (hscan a h) (hread a h)
  refine ⟨hdecode, fun a b ha hb he => ?_⟩
  have hsame := hdecode a ha
  rw [he, hdecode b hb] at hsame
  exact (Except.ok.inj hsame).symm

/-- Every value without doubles is read back from its text, and texts of different values differ. -/
theorem values_roundTrip :
    RoundTrips readVariable variableTokens (fun _ => True) ∧
    RoundTrips readTerm termTokens (fun t => t.isDouble = false) ∧
    RoundTrips readSolution solutionTokens (fun s => s.hasDouble = false) ∧
    RoundTrips readJoinVariables joinVariablesTokens (fun _ => True) ∧
    RoundTrips readConfig configTokens (fun _ => True) :=
  ⟨.of_reads (fun v _ => scans_variable v) (fun v _ => reads_variable v),
    .of_reads (fun _ => scans_term) (fun _ => reads_term),
    .of_reads (fun _ => scans_solution) (fun _ => reads_solution),
    .of_reads (fun vars _ => scans_joinVariables vars) (fun vars _ => reads_joinVariables vars),
    .of_reads (fun c _ => scans_config c) (fun c _ => reads_config c)⟩

theorem values_roundTrip_escaped :
    let s := Solution.ofBindings [(⟨"?x"⟩, .literal ⟨"é\"\n", none, some ""⟩),
      (⟨""⟩, .integer (-9223372036854775808)), (⟨"\\"⟩, .blank "\x01")]
    let t := Solution.ofBindings [(⟨"?x"⟩, .literal ⟨"1", none, none⟩)]
    let u := Solution.ofBindings [(⟨"?x"⟩, .integer 1)]
    s.hasDouble = false ∧
      Token.render (bindingTokens (⟨"\\"⟩, .blank "\x01")) =
        "[\"\\\\\",\x7b\"blank_node\":\"\\u0001\"\x7d]" ∧
      Reader.decode readSolution (Token.render (solutionTokens s)) = .ok s ∧
      Token.render (solutionTokens t) ≠ Token.render (solutionTokens u) :=
  ⟨by decide, by decide +kernel, values_roundTrip.2.2.1.decode_render _ (by decide), fun h =>
    absurd (values_roundTrip.2.2.1.eq_of_render_eq _ _ (by decide) (by decide) h) (by decide)⟩

end Json

end HashJoin
