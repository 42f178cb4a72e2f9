import BoolQuery.Proofs.Query.ClauseReader
import BoolQuery.Proofs.Query.ValueText

/-! The tokens of rules. A rule that a query can state is written as a clause that states an
equal rule; which rules these are is a matter of its field, its operator and its value. -/

namespace BoolQuery

namespace Query
open Text

/-- Whether a text can follow that of a node: it is empty, or begins with a space or with a
closing parenthesis. -/
def Closes (rest : List Char) : Prop := ∀ c ∈ rest.head?, c = ' ' ∨ c = ')'

/-- Wherever it stands in a query, the text is split into these tokens. -/
def Lexes (cs : List Char) (ts : List Token) : Prop :=
  ∀ rest, Closes rest → tokenize (cs ++ rest) = ts ++ tokenize rest

theorem Closes.nil : Closes [] := by
  intro c hc
  cases hc

theorem Closes.space (cs : List Char) : Closes (' ' :: cs) := by
  intro c hc
  exact .inl (by simpa using hc.symm)

theorem Closes.parenthesis (cs : List Char) : Closes (')' :: cs) := by
  intro c hc
  exact .inr (by simpa using hc.symm)

theorem Closes.endsWord {rest : List Char} (h : Closes rest) : EndsWord rest := by
  intro c hc
  obtain rfl | rfl := h c hc <;> decide

theorem Closes.head?_ne {rest : List Char} (h : Closes rest) : rest.head? ≠ some '=' := by
  intro heq
  obtain hspace | hparenthesis := h '=' heq
  · cases hspace
  · cases hparenthesis

theorem Lexes.tokenize {cs : List Char} {ts : List Token} (h : Lexes cs ts) :
    tokenize cs = ts := by
  simpa [tokenize_nil] using h [] .nil

theorem tokenize_space (cs : List Char) : tokenize (' ' :: cs) = tokenize cs :=
  tokenize_blank (by decide) cs

/-- Lower-case letters and underscores, a letter first. -/
def isLowerWord : List Char → Bool
  | [] => false
  | c :: cs => c.isLower && cs.all fun d => d.isLower || d == '_'

/-- The operators that compare a field with a value. -/
inductive IsOperator : String → Prop
  | sign {op} : op ∈ ["=", "==", "!=", "<", "<=", ">", ">="] → IsOperator op
  | negated {op} : op ∈ ["!contains", "!like"] → IsOperator op
  | notIn : IsOperator "not in"
  | word {op} : isLowerWord op.toList = true → IsOperator op

theorem isLowerWord_iff {cs : List Char} : isLowerWord cs = true ↔
    ∃ c ds, cs = c :: ds ∧ c.isLower = true ∧ ∀ d ∈ ds, (d.isLower || d == '_') = true := by
  cases cs with
  | nil => simp [isLowerWord]
  | cons c cs => simp [isLowerWord]

/-- What holds of lower-case letters and of `_` holds throughout a lower-case word. -/
theorem forall_of_isLowerWord {P : Char → Prop} (hletter : ∀ c, c.isLower = true → P c)
    (hscore : P '_') {cs : List Char} (h : isLowerWord cs = true) : ∀ c ∈ cs, P c := by
  obtain ⟨c, ds, rfl, hc, hds⟩ := isLowerWord_iff.1 h
  refine List.forall_mem_cons.2 ⟨hletter c hc, fun d hd => ?_⟩
  obtain hd | hd := Bool.or_eq_true_iff.1 (hds d hd)
  · exact hletter d hd
  · rw [eq_of_beq hd]
    exact hscore

theorem isCapitalWord_upper {cs : List Char} (h : isLowerWord cs = true) :
    isCapitalWord (cs.map Char.toUpper) = true := by
  obtain ⟨c, ds, rfl, hc, hds⟩ := isLowerWord_iff.1 h
  simp only [List.map_cons, isCapitalWord, isUpper_toUpper hc, Bool.true_and, List.all_map,
    List.all_eq_true]
  intro d hd
  obtain hd | hd := Bool.or_eq_true_iff.1 (hds d hd)
  · simp [isUpper_toUpper hd]
  · rw [eq_of_beq hd]
    decide

theorem isBare_of_isCapitalWord {cs : List Char} (h : isCapitalWord cs = true) : IsBare cs := by
  cases cs with
  | nil => cases h
  | cons c cs =>
    simp only [isCapitalWord, Bool.and_eq_true, List.all_eq_true, Bool.or_eq_true,
      beq_iff_eq] at h
    refine ⟨by simp, ?_⟩
    intro d hd
    obtain rfl | hd := List.mem_cons.1 hd
    · exact .inl (isAlphanum_iff.2 (.inl (isAlpha_iff.2 (.inl h.1))))
    · obtain hupper | rfl := h.2 d hd
      · exact .inl (isAlphanum_iff.2 (.inl (isAlpha_iff.2 (.inl hupper))))
      · exact .inr (by decide)

theorem isWord_of_isCapitalWord {cs : List Char} (h : isCapitalWord cs = true) : IsWord cs :=
  (isBare_of_isCapitalWord h).isWord

theorem filter_not_isBlank {cs : List Char} (h : IsWord cs) :
    cs.filter (fun c => !isBlank c) = cs := by
  apply List.filter_eq_self.2
  intro c hc
  simp [(not_mem_of_not_reserved (h.plain c hc)).1]

theorem isSpaced_of_isCapitalWord {cs : List Char} (h : isCapitalWord cs = true) :
    isSpaced cs = true := by
  rw [isSpaced, filter_not_isBlank (isWord_of_isCapitalWord h)]
  split
  · simp [isCapitalWord] at h
  · exact h

/-- An operator that is spelled with letters is written in upper case. -/
theorem operatorText_of_isLowerWord {op : String} (h : isLowerWord op.toList = true) :
    operatorText op = op.toList.map Char.toUpper := by
  obtain ⟨c, ds, hcons, hc, _⟩ := isLowerWord_iff.1 h
  have hall := forall_of_isLowerWord (P := fun d => (d.isAlpha || d == '_') = true)
    (fun d hd => by simp [isAlpha_iff.2 (.inr hd)]) (by decide) h
  have hwordy : isWordy op.toList = true := by
    rw [hcons] at hall ⊢
    simp only [isWordy, isAlpha_iff.2 (.inr hc), Bool.true_and, List.all_eq_true]
    exact fun d hd => by simp [hall d hd]
  unfold operatorText
  split
  · rename_i heq
    rw [hcons] at heq
    obtain ⟨rfl, _⟩ := List.cons.inj heq
    exact absurd hc (by decide)
  · rw [if_pos hwordy]

theorem toLower_upper {op : String} (h : isLowerWord op.toList = true) :
    (String.ofList (op.toList.map Char.toUpper)).toLower = op := by
  have hall : ∀ d ∈ op.toList, d.toUpper.toLower = d :=
    forall_of_isLowerWord (fun d hd => toLower_toUpper hd) (by decide) h
  have hmap : (op.toList.map Char.toUpper).map Char.toLower = op.toList := by
    rw [List.map_map]
    exact (List.map_congr_left hall).trans (List.map_id _)
  rw [toLower_eq, String.toList_ofList, hmap, String.ofList_toList]

/-- The space around an operator as written. -/
def gap (op : String) : List Char := if isSpaced (operatorText op) then [' '] else []

theorem gap_of_isLowerWord {op : String} (h : isLowerWord op.toList = true) : gap op = [' '] := by
  rw [gap, operatorText_of_isLowerWord h,
    if_pos (isSpaced_of_isCapitalWord (isCapitalWord_upper h))]

/-- The tokens of an operator, and what they make of the operand behind them. -/
structure ReadsOperator (op : String) (o : Token) (us : List Token) : Prop where
  isOperator : o.isOperator = true
  tokenize : ∀ field cs, IsWord field → cs.head? ≠ some '=' →
    tokenize (field ++ gap op ++ operatorText op ++ (gap op ++ cs)) =
      ⟨.word, String.ofList field⟩ :: o :: (us ++ tokenize cs)
  spells : ∀ field ts c, Clause.SpellsOperand field op ts c →
    (∀ t ∈ ts.head?, Clause.completesKeyword op t = false) →
    Clause.SpellsComparison field o.operatorName (us ++ ts) c

theorem spellsComparison_of_head {field op : String} {ts : List Token} {c : Clause}
    (h : Clause.SpellsOperand field op ts c)
    (hk : ∀ t ∈ ts.head?, Clause.completesKeyword op t = false) :
    Clause.SpellsComparison field op ts c := by
  obtain ⟨t, ts, rfl⟩ := List.exists_cons_of_ne_nil h.ne_nil
  exact .operand (hk t rfl) h

theorem readsOperator_sign {op : String}
    (h : op ∈ ["=", "==", "!=", "<", "<=", ">", ">="]) : ReadsOperator op ⟨.operator, op⟩ [] := by
  have hfacts : ∀ op ∈ ["=", "==", "!=", "<", "<=", ">", ">="], gap op = [] ∧
      operatorText op = op.toList ∧ op.toList ∈ comparisonSigns ∧
      (op.toList.dropWhile (· == '!')).all Char.isAlpha = false ∧
      op.toList.head?.any isReserved = true := by
    decide +kernel
  obtain ⟨hgap, htext, hsign, hletters, hhead⟩ := hfacts op h
  have hname : (⟨.operator, op⟩ : Token).operatorName = op :=
    Token.operatorName_of_sign rfl hletters
  refine ⟨rfl, ?_, ?_⟩
  · intro field cs hfield hcs
    have hends : EndsWord (op.toList ++ cs) := by
      intro c hc
      cases hop : op.toList with
      | nil => simp [hop] at hhead
      | cons d ds =>
        obtain rfl : d = c := by simpa [hop] using hc
        simpa [hop] using hhead
    have hsplit : field ++ gap op ++ operatorText op ++ (gap op ++ cs) =
        field ++ (op.toList ++ cs) := by simp [hgap, htext]
    rw [hsplit, tokenize_word hfield hends, tokenize_comparison hsign hcs, String.ofList_toList]
    rfl
  · intro field ts c hc hk
    rw [hname]
    exact spellsComparison_of_head hc hk

theorem readsOperator_negated {op : String} (h : op ∈ ["!contains", "!like"]) :
    ReadsOperator op ⟨.operator, String.ofList (operatorText op)⟩ [] := by
  have hfacts : ∀ op ∈ ["!contains", "!like"], gap op = [' '] ∧
      (operatorText op).map Char.toLower = op.toList ∧
      ((operatorText op).dropWhile (· == '!')).all Char.isAlpha = true ∧
      operatorText op ∈ Lexeme.negatedKeywords.map ('!' :: ·) := by decide +kernel
  obtain ⟨hgap, hchars, hletters, hmem⟩ := hfacts op h
  obtain ⟨word, hword, htext⟩ := List.mem_map.1 hmem
  replace htext := htext.symm
  have hname : (⟨.operator, String.ofList (operatorText op)⟩ : Token).operatorName = op := by
    rw [Token.operatorName_of_letters (by rw [String.toList_ofList]; exact hletters), toLower_eq,
      String.toList_ofList, hchars, String.ofList_toList]
  refine ⟨rfl, ?_, ?_⟩
  · intro field cs hfield hcs
    have hread : Lexeme.negatedKeyword? ('!' :: (word ++ ' ' :: cs)) =
        some (⟨.operator, String.ofList ('!' :: word)⟩, ' ' :: cs) := by
      simp only [Lexeme.negatedKeywords, List.mem_cons, List.not_mem_nil, or_false] at hword
      obtain rfl | rfl := hword <;> rfl
    have hsplit : field ++ gap op ++ operatorText op ++ (gap op ++ cs) =
        field ++ ' ' :: '!' :: (word ++ ' ' :: cs) := by simp [hgap, htext]
    rw [hsplit, tokenize_word hfield (.cons (by decide) _), tokenize_space,
      tokenize_negatedKeyword hread, htext]
    simp only [tokenize_space, List.nil_append]
  · intro field ts c hc hk
    rw [hname]
    exact spellsComparison_of_head hc hk

theorem readsOperator_notIn : ReadsOperator "not in" ⟨.word, "NOT"⟩ [⟨.word, "IN"⟩] := by
  have hgap : gap "not in" = [' '] := by decide +kernel
  have htext : operatorText "not in" = "NOT".toList ++ ' ' :: "IN".toList := by decide +kernel
  have hnot : IsWord "NOT".toList := isWord_of_isCapitalWord (by decide)
  have hin : IsWord "IN".toList := isWord_of_isCapitalWord (by decide)
  have hlower : "NOT".toLower = "not" := by rw [toLower_eq]; rfl
  refine ⟨by decide +kernel, ?_, ?_⟩
  · intro field cs hfield hcs
    have hsplit : field ++ gap "not in" ++ operatorText "not in" ++ (gap "not in" ++ cs) =
        field ++ ' ' :: ("NOT".toList ++ ' ' :: ("IN".toList ++ ' ' :: cs)) := by
      simp [hgap, htext]
    rw [hsplit, tokenize_word hfield (.cons (by decide) _), tokenize_space,
      tokenize_word hnot (.cons (by decide) _), tokenize_space,
      tokenize_word hin (.cons (by decide) _), tokenize_space]
    rfl
  · intro field ts c hc _
    rw [Token.operatorName_word, hlower]
    exact .notIn (by simp [Token.isWord, equalsIgnoringCase_eq]) hc

theorem readsOperator_word {op : String} (h : isLowerWord op.toList = true) :
    ReadsOperator op ⟨.word, String.ofList (op.toList.map Char.toUpper)⟩ [] := by
  have htext := operatorText_of_isLowerWord h
  have hcapital := isCapitalWord_upper h
  have hgap := gap_of_isLowerWord h
  refine ⟨?_, ?_, ?_⟩
  · simp [Token.isOperator, isKeywordOperator, hcapital]
  · intro field cs hfield hcs
    have hsplit : field ++ gap op ++ operatorText op ++ (gap op ++ cs) =
        field ++ ' ' :: (op.toList.map Char.toUpper ++ ' ' :: cs) := by simp [hgap, htext]
    rw [hsplit, tokenize_word hfield (.cons (by decide) _), tokenize_space,
      tokenize_word (isWord_of_isCapitalWord hcapital) (.cons (by decide) _), tokenize_space]
    rfl
  · intro field ts c hc hk
    rw [Token.operatorName_word, toLower_upper h]
    exact spellsComparison_of_head hc hk

/-- What holds of ten operators and of all that are words holds of every operator. -/
theorem IsOperator.of_forall {P : String → Prop}
    (hsigns : ∀ op ∈ ["=", "==", "!=", "<", "<=", ">", ">=", "!contains", "!like", "not in"], P op)
    (hword : ∀ op : String, isLowerWord op.toList = true → P op) {op : String}
    (h : IsOperator op) : P op := by
  cases h with
  | sign h => exact hsigns op (List.mem_append_left ["!contains", "!like", "not in"] h)
  | negated h =>
    have hmem : op ∈ ["!contains", "!like", "not in"] := List.mem_append_left ["not in"] h
    exact hsigns op (List.mem_append_right ["=", "==", "!=", "<", "<=", ">", ">="] hmem)
  | notIn => exact hsigns _ (by simp)
  | word h => exact hword op h

theorem IsOperator.reads {op : String} (h : IsOperator op) : ∃ o us, ReadsOperator op o us := by
  cases h with
  | sign h => exact ⟨_, _, readsOperator_sign h⟩
  | negated h => exact ⟨_, _, readsOperator_negated h⟩
  | notIn => exact ⟨_, _, readsOperator_notIn⟩
  | word h => exact ⟨_, _, readsOperator_word h⟩

theorem isOperator_of_isListOperator {op : String} (h : isListOperator op = true) :
    IsOperator op := by
  simp only [isListOperator, Bool.or_eq_true, beq_iff_eq] at h
  obtain rfl | rfl := h
  · exact .word (by decide +kernel)
  · exact .notIn

/-- The fields that can be written without quotes. -/
structure IsField (field : String) : Prop where
  isWord : IsWord field.toList
  not_name : isRuleSetName field = false

theorem IsField.startsClause {field : String} (h : IsField field) :
    (⟨.word, field⟩ : Token).startsClause = true := by
  simp [Token.startsClause, Token.isLiteral, Token.isRuleSetName, h.not_name]

end Query

namespace Value
open Query

theorem head?_queryText_ne {v : Value} {t : Token} (h : v.token? = some t) (rest : List Char) :
    (v.queryText ++ rest).head? ≠ some '=' := by
  rcases queryText_cases h with hbare | ⟨w, hw⟩
  · obtain ⟨c, ds, hcs⟩ := List.exists_cons_of_ne_nil hbare.ne_nil
    have hne := hbare.not_mem (c := '=') (by decide) (by decide)
    rw [hcs] at hne ⊢
    simp only [List.cons_append, List.head?_cons, ne_eq, Option.some.injEq]
    rintro rfl
    exact hne (by simp)
  · simp [hw, Text.quote]

theorem isRuleSetName_of_forall_not_isUpper {cs : List Char} (h : ∀ c ∈ cs, c.isUpper = false) :
    isRuleSetName (String.ofList cs) = false := by
  have : cs.any Char.isUpper = false := by
    rw [List.any_eq_false]
    exact fun c hc => by simp [h c hc]
  simp [isRuleSetName, this]

/-- No scalar is written as the name of a ruleset. -/
theorem isRuleSetName_of_token? {v : Value} {t : Token} (h : v.token? = some t) :
    t.isRuleSetName = false := by
  cases v with
  | list _ => cases h
  | string s =>
    cases h
    by_cases hbare : isBareWord s = true
    · have : isRuleSetName s = false := by
        simp only [isBareWord, Bool.and_eq_true, Bool.not_eq_true'] at hbare
        exact hbare.2
      simp [Token.isRuleSetName, this]
    · simp [Token.isRuleSetName, hbare]
  | bool b =>
    cases h
    cases b <;> decide +kernel
  | number x =>
    cases h
    have hchars : ∀ c ∈ x.queryText, c.isUpper = false := by
      by_cases hfin : x.isFinite = true
      · intro c hc
        obtain h | rfl | rfl := (Numeric.Double.queryText_chars hfin).2 c hc
        · exact Text.not_isUpper_of_isDigit h
        · decide
        · decide
      · rw [Numeric.Double.queryText, if_pos (by simpa using hfin)]
        exact List.all_iff_forall_prop.1 (by decide)
    simp [Token.isRuleSetName, queryText, isRuleSetName_of_forall_not_isUpper hchars]
  | date d =>
    cases h
    have hchars : ∀ c ∈ d.text, c.isUpper = false := by
      intro c hc
      obtain h | rfl | rfl := d.text_chars.2 c hc
      · exact Text.not_isUpper_of_isDigit h
      · decide
      · decide
    simp [Token.isRuleSetName, queryText, isRuleSetName_of_forall_not_isUpper hchars]

theorem startsClause_of_token? {v : Value} {t : Token} (h : v.token? = some t) :
    t.startsClause = true :=
  Token.startsClause_of_isLiteral (isLiteral_of_token? h) (isRuleSetName_of_token? h)

theorem exists_tokens_of_fits {s : Schema} {field : String} {vs : List Value}
    (h : ∀ v ∈ vs, v.Fits s field) :
    ∃ ts, tokens? vs = some ts ∧ equalAll (ts.map (s.valueOf field)) vs = true := by
  obtain ⟨ts, hts, hall⟩ := exists_tokens? h
  refine ⟨ts, hts, ?_⟩
  clear hts
  induction hall with
  | nil => rfl
  | cons hv _ ih => exact Bool.and_eq_true_iff.2 ⟨hv, ih fun w hw => h w (by simp [hw])⟩

end Value

namespace Rule
open Query

/-- The rules that a query can state as they are. A value has to be read back from its own
text, and must not be read as a part of the operator before it. -/
inductive Legible (s : Schema) : Rule → Prop
  | search {v} : v.Fits s documentField → Legible s (documentSearch v)
  | nullTest {field} (negated : Bool) : IsField field → Legible s (nullTest field negated)
  | compare {field op v} : IsField field → IsOperator op →
      isDocumentSearch { field, operator := op } = false → v.Fits s field →
      (∀ t, v.token? = some t → Clause.completesKeyword op t = false) →
      Legible s { field, operator := op, value := some v }
  | among {field op vs} : IsField field → isListOperator op = true → vs ≠ [] →
      (∀ v ∈ vs, v.Fits s field) →
      Legible s { field, operator := op, value := some (.list vs) }

variable {s : Schema} {r : Rule}

/-- The scalar of a legible rule is read back from its text. -/
theorem Legible.fits (h : r.Legible s) {v : Value} {t : Token} (hv : r.value = some v)
    (ht : v.token? = some t) : v.Fits s r.field := by
  cases h with
  | search hfits =>
    obtain rfl := Option.some.inj hv
    exact hfits
  | nullTest => cases hv
  | compare _ _ _ hfits _ =>
    obtain rfl := Option.some.inj hv
    exact hfits
  | among =>
    obtain rfl := Option.some.inj hv
    cases ht

/-- The single values that a rule compares with. -/
def scalars (r : Rule) : List Value :=
  match r.value with
  | none => []
  | some (.list vs) => vs
  | some v => [v]

theorem scalars_of_token? {v : Value} {u : Token} (hu : v.token? = some u)
    (hr : r.value = some v) : r.scalars = [v] := by
  cases v with
  | list _ => cases hu
  | _ => simp [scalars, hr]

theorem beq_iff {r r' : Rule} : (r == r') = true ↔
    r.field = r'.field ∧ r.operator = r'.operator ∧ (r.value == r'.value) = true ∧
      r.entity = r'.entity := by
  show equal r r' = true ↔ _
  simp [equal, and_assoc]

/-- Equal rules are written alike. -/
theorem queryText_of_beq {r' : Rule} (h : (r == r') = true) : r.queryText = r'.queryText := by
  obtain ⟨field, op, value, _⟩ := r
  obtain ⟨field', op', value', _⟩ := r'
  obtain ⟨rfl, rfl, hvalue, _⟩ := beq_iff.1 h
  cases value with
  | none =>
    cases value' with
    | none => rfl
    | some _ => cases hvalue
  | some v =>
    cases value' with
    | none => cases hvalue
    | some w =>
      have htext : v.queryText = w.queryText := Value.queryText_of_equal v w hvalue
      simp only [queryText, comparisonText, isDocumentSearch, Option.map_some, htext]
      rfl

theorem queryText_of_not_search {field op : String} {value : Option Value}
    (h : isDocumentSearch { field, operator := op } = false) :
    queryText { field, operator := op, value } = field.toList ++ gap op ++ operatorText op ++
      (match value with
        | some v => gap op ++ v.queryText
        | none => []) := by
  have h' : isDocumentSearch { field, operator := op, value } = false := h
  rw [queryText, h', comparisonText, gap]
  cases value with
  | none => rfl
  | some v => rfl

/-- A comparison is split into its field, its operator and what it is compared with. -/
theorem lexes_comparison {field op : String} {v : Value} {o : Token} {us ts : List Token}
    (hfield : IsField field) (hop : ReadsOperator op o us)
    (hsearch : isDocumentSearch { field, operator := op } = false)
    (hhead : ∀ rest, (v.queryText ++ rest).head? ≠ some '=')
    (hv : ∀ rest, EndsWord rest → tokenize (v.queryText ++ rest) = ts ++ tokenize rest) :
    Lexes (queryText { field, operator := op, value := some v })
      (⟨.word, field⟩ :: o :: (us ++ ts)) := by
  intro rest hrest
  rw [queryText_of_not_search hsearch]
  have hsplit : field.toList ++ gap op ++ operatorText op ++ (gap op ++ v.queryText) ++ rest =
      field.toList ++ gap op ++ operatorText op ++ (gap op ++ (v.queryText ++ rest)) := by
    simp
  rw [hsplit, hop.tokenize _ _ hfield.isWord (hhead rest), hv rest hrest.endsWord,
    String.ofList_toList]
  simp

theorem isDocumentSearch_nullTest (field : String) (negated : Bool) :
    isDocumentSearch (nullTest field negated) = false := by
  have hnot : ∀ op ∈ ["is null", "is not null"],
      Text.equalsIgnoringCase op "contains" = false := by decide +kernel
  have : Text.equalsIgnoringCase (nullTest field negated).operator "contains" = false := by
    cases negated <;> exact hnot _ (by simp [nullTest])
  simp [isDocumentSearch, this]

theorem queryText_nullTest (field : String) (negated : Bool) :
    (nullTest field negated).queryText = field.toList ++ ' ' :: ("IS".toList ++
      ' ' :: (if negated then "NOT".toList ++ ' ' :: "NULL".toList else "NULL".toList)) := by
  have hgap : ∀ op ∈ ["is null", "is not null"], gap op = [' '] := by decide +kernel
  have hplain : operatorText "is null" = "IS".toList ++ ' ' :: "NULL".toList := by
    decide +kernel
  have hneg : operatorText "is not null" =
      "IS".toList ++ ' ' :: ("NOT".toList ++ ' ' :: "NULL".toList) := by
    decide +kernel
  have htext : (nullTest field negated).queryText = _ :=
    queryText_of_not_search (isDocumentSearch_nullTest field negated)
  cases negated with
  | false => simpa [nullTest, hgap "is null" (by simp), hplain] using htext
  | true => simpa [nullTest, hgap "is not null" (by simp), hneg] using htext

theorem lexes_nullTest {field : String} (hfield : IsField field) (negated : Bool) :
    Lexes (nullTest field negated).queryText (⟨.word, field⟩ :: ⟨.word, "IS"⟩ ::
      (if negated then [⟨.word, "NOT"⟩, ⟨.word, "NULL"⟩] else [⟨.word, "NULL"⟩])) := by
  have his : IsWord "IS".toList := isWord_of_isCapitalWord (by decide)
  have hnot : IsWord "NOT".toList := isWord_of_isCapitalWord (by decide)
  have hnull : IsWord "NULL".toList := isWord_of_isCapitalWord (by decide)
  intro rest hrest
  have hspace (cs : List Char) : EndsWord (' ' :: cs) := .cons (by decide) cs
  rw [queryText_nullTest]
  cases negated with
  | false =>
    simp only [Bool.false_eq_true, if_false, List.append_assoc, List.cons_append]
    rw [tokenize_word hfield.isWord (hspace _), tokenize_space, tokenize_word his (hspace _),
      tokenize_space, tokenize_word hnull hrest.endsWord, String.ofList_toList]
    rfl
  | true =>
    simp only [if_true, List.append_assoc, List.cons_append]
    rw [tokenize_word hfield.isWord (hspace _), tokenize_space, tokenize_word his (hspace _),
      tokenize_space, tokenize_word hnot (hspace _), tokenize_space,
      tokenize_word hnull hrest.endsWord, String.ofList_toList]
    rfl

/-- The rule is written as a clause that states an equal rule. -/
def Spelled (s : Schema) (r : Rule) : Prop :=
  ∃ ts c, Lexes r.queryText ts ∧ Clause.Spells ts c ∧ (c.toRule s == r) = true

theorem isDocumentSearch_documentSearch (v : Value) :
    (documentSearch v).isDocumentSearch = true := by
  simp [isDocumentSearch, documentSearch, Text.equalsIgnoringCase]

theorem queryText_documentSearch (v : Value) : (documentSearch v).queryText = v.queryText := by
  rw [queryText, if_pos (isDocumentSearch_documentSearch v)]
  rfl

theorem spelled_search {v : Value} (hfits : v.Fits s documentField) :
    Spelled s (documentSearch v) := by
  obtain ⟨t, ht, heq⟩ := hfits
  refine ⟨[t], .search t, ?_, .search ?_, ?_⟩
  · intro rest hrest
    rw [queryText_documentSearch]
    exact Value.tokenize_queryText ht hrest.endsWord
  · exact Value.startsClause_of_token? ht
  · exact beq_iff.2 ⟨rfl, rfl, heq, rfl⟩

theorem spelled_nullTest {field : String} (hfield : IsField field) (negated : Bool) :
    Spelled s (nullTest field negated) := by
  have hlower : "IS".toLower = "is" := by rw [Text.toLower_eq]; rfl
  have his : (⟨.word, "IS"⟩ : Token).isOperator = true := by decide +kernel
  have hnull : (⟨.word, "NULL"⟩ : Token).isWord "null" = true := by
    simp [Token.isWord, Text.equalsIgnoringCase_eq]
  have hnot : (⟨.word, "NOT"⟩ : Token).isWord "not" = true := by
    simp [Token.isWord, Text.equalsIgnoringCase_eq]
  refine ⟨_, .nullTest field negated, lexes_nullTest hfield negated, ?_, ?_⟩
  · have hspells : Clause.SpellsComparison field "is"
        (if negated then [⟨.word, "NOT"⟩, ⟨.word, "NULL"⟩] else [⟨.word, "NULL"⟩])
        (.nullTest field negated) := by
      cases negated with
      | false => exact .null hnull
      | true => exact .notNull hnot hnull
    rw [← hlower, ← Token.operatorName_word] at hspells
    exact .comparison hfield.startsClause his hspells
  · exact beq_iff.2 ⟨rfl, rfl, rfl, rfl⟩

theorem spelled_compare {field op : String} {v : Value} (hfield : IsField field)
    (hop : IsOperator op) (hsearch : isDocumentSearch { field, operator := op } = false)
    (hfits : v.Fits s field)
    (hkey : ∀ t, v.token? = some t → Clause.completesKeyword op t = false) :
    Spelled s { field, operator := op, value := some v } := by
  obtain ⟨t, ht, heq⟩ := hfits
  obtain ⟨o, us, hreads⟩ := hop.reads
  have hv : ∀ rest, EndsWord rest →
      tokenize (v.queryText ++ rest) = [t] ++ tokenize rest := fun rest hrest =>
    Value.tokenize_queryText ht hrest
  have hk : ∀ u ∈ [t].head?, Clause.completesKeyword op u = false := by
    intro u hu
    obtain rfl : t = u := by simpa using hu
    exact hkey t ht
  have hlex := lexes_comparison hfield hreads hsearch (Value.head?_queryText_ne ht) hv
  have hspells := hreads.spells field [t] _ (.literal (Value.isLiteral_of_token? ht)) hk
  exact ⟨_, .compare field op t, hlex,
    .comparison hfield.startsClause hreads.isOperator hspells, beq_iff.2 ⟨rfl, rfl, heq, rfl⟩⟩

theorem tokenize_list {vs : List Value} {ts : List Token} (h : Value.tokens? vs = some ts)
    (rest : List Char) : tokenize ((Value.list vs).queryText ++ rest) =
      ⟨.symbol, "("⟩ :: (ts.intersperse Value.comma ++ [⟨.symbol, ")"⟩]) ++ tokenize rest := by
  have hsplit : (Value.list vs).queryText ++ rest =
      '(' :: ([','].intercalate (Value.queryTexts vs) ++ ')' :: rest) := by
    simp [Value.queryText]
  rw [hsplit, tokenize_symbol (by decide) (by decide), Value.tokenize_queryTexts h,
    tokenize_symbol (by decide) (by decide)]
  simp

theorem isDocumentSearch_of_isListOperator {field op : String}
    (h : isListOperator op = true) : isDocumentSearch { field, operator := op } = false := by
  have hfacts : ∀ op ∈ ["in", "not in"], Text.equalsIgnoringCase op "contains" = false := by
    decide +kernel
  have : Text.equalsIgnoringCase op "contains" = false := by
    refine hfacts op ?_
    simpa [isListOperator] using h
  simp [isDocumentSearch, this]

theorem spelled_among {field op : String} {vs : List Value} (hfield : IsField field)
    (hop : isListOperator op = true) (hne : vs ≠ []) (hfits : ∀ v ∈ vs, v.Fits s field) :
    Spelled s { field, operator := op, value := some (.list vs) } := by
  obtain ⟨ts, hts, heq⟩ := Value.exists_tokens_of_fits hfits
  have hlists := Value.lists_intersperse (Value.forall_of_tokens? Value.isLiteral_of_token? hts)
  obtain ⟨o, ks, hreads⟩ := (isOperator_of_isListOperator hop).reads
  have hhead (rest : List Char) : ((Value.list vs).queryText ++ rest).head? ≠ some '=' := by
    simp [Value.queryText]
  have hts' : ts ≠ [] := by
    rintro rfl
    cases vs with
    | nil => exact hne rfl
    | cons v vs =>
      obtain ⟨t, us, _, _, h⟩ := Value.tokens?_cons hts
      cases h
  have hk : ∀ u ∈ (⟨.symbol, "("⟩ :: (ts.intersperse Value.comma ++ [⟨.symbol, ")"⟩]) :
      List Token).head?, Clause.completesKeyword op u = false := by
    intro u hu
    obtain rfl : (⟨.symbol, "("⟩ : Token) = u := by simpa using hu
    simp [Clause.completesKeyword, Token.isWord]
  have hlex := lexes_comparison hfield hreads (isDocumentSearch_of_isListOperator hop) hhead
    fun rest _ => tokenize_list hts rest
  have hspells := hreads.spells field _ _ (.list hop rfl rfl hlists hts') hk
  exact ⟨_, .among field op ts, hlex,
    .comparison hfield.startsClause hreads.isOperator hspells, beq_iff.2 ⟨rfl, rfl, heq, rfl⟩⟩

/-- Every legible rule is written as a clause that states an equal rule. -/
theorem Legible.spelled (h : r.Legible s) : Spelled s r := by
  cases h with
  | search hfits => exact spelled_search hfits
  | nullTest negated hfield => exact spelled_nullTest hfield negated
  | compare hfield hop hsearch hfits hkey => exact spelled_compare hfield hop hsearch hfits hkey
  | among hfield hop hne hfits => exact spelled_among hfield hop hne hfits

end Rule

end BoolQuery
