import BoolQuery.Proofs.Query.StatedRules
import BoolQuery.Proofs.Query.TreeHeight

/-! Strings without quotes. In quotes a string is read back as it is, wherever it stands. A string
that can do without them is written bare, and then the type of its field and the operator before it
have a say in what it is read as; this says when it is the string all the same. -/

namespace BoolQuery

/-- The text of a date is a bare word, unless its year has a plus sign. -/
theorem Date.isBareWord_text_iff {d : Date} :
    Query.isBareWord (String.ofList d.text) = true ↔ d.year ≤ 9999 := by
  rw [← Int.not_lt, ← plus_mem_text_iff]
  constructor
  · intro hbare hplus
    have hchars := (Bool.and_eq_true_iff.1 (Bool.and_eq_true_iff.1 hbare).1).2
    rw [Text.everyChar, String.toList_ofList, List.all_eq_true] at hchars
    exact absurd (hchars '+' hplus) (by decide)
  · intro hplus
    have htoken : (Value.date d).token? = some ⟨.word, String.ofList d.text⟩ := rfl
    have hname : Query.isRuleSetName (String.ofList d.text) = false := by
      simpa [Query.Token.isRuleSetName] using Value.isRuleSetName_of_token? htoken
    have hchars : ∀ c ∈ d.text, (c.isAlphanum || c == '.' || c == '_' || c == '-') = true := by
      intro c hc
      obtain hdigit | rfl | rfl := d.text_chars.2 c hc
      · simp [Text.isAlphanum_iff.2 (.inr hdigit)]
      · decide
      · exact absurd hc hplus
    simp [Query.isBareWord, Text.everyChar, hname, d.text_chars.1, List.all_eq_true.2 hchars]

namespace Rule
open Query

variable {field op : String} {cs : List Char} {o t : Token} {us : List Token} {c : Clause}

/-- The text of a rule whose operand is spelled as given. A document search is only its operand. -/
def textWith (field op : String) (operand : List Char) : List Char :=
  if isDocumentSearch { field, operator := op } then operand
  else field.toList ++ gap op ++ operatorText op ++ (gap op ++ operand)

theorem queryText_eq_textWith (field op : String) (v : Value) :
    queryText { field, operator := op, value := some v } = textWith field op v.queryText := by
  unfold textWith
  split
  · rename_i hsearch
    exact if_pos hsearch
  · rename_i hsearch
    exact queryText_of_not_search (by simpa using hsearch)

theorem tokenize_textWith (hfield : IsField field) (hop : ReadsOperator op o us)
    (hsearch : isDocumentSearch { field, operator := op } = false) (hhead : cs.head? ≠ some '=') :
    tokenize (textWith field op cs) = ⟨.word, field⟩ :: o :: (us ++ tokenize cs) := by
  rw [textWith, hsearch, if_neg Bool.false_ne_true, hop.tokenize _ _ hfield.isWord hhead,
    String.ofList_toList]

/-- A literal that completes no keyword is compared with the field. -/
theorem exists_spells_textWith (hfield : IsField field) (hop : IsOperator op)
    (hhead : cs.head? ≠ some '=') (htok : tokenize cs = [t]) (ht : t.startsClause = true)
    (hkey : Clause.completesKeyword op t = false) :
    ∃ c, Clause.Spells (tokenize (textWith field op cs)) c ∧
      ∀ s, c.toRule s = { field, operator := op, value := some (s.valueOf field t) } := by
  have hlit := Token.isLiteral_of_startsClause ht
  cases hsearch : isDocumentSearch { field, operator := op } with
  | true =>
    obtain ⟨rfl, rfl⟩ := isDocumentSearch_eq hop hsearch
    refine ⟨.search t, ?_, fun _ => rfl⟩
    rw [textWith, hsearch, if_pos rfl, htok]
    exact .search ht
  | false =>
    obtain ⟨o, us, hreads⟩ := hop.reads
    refine ⟨.compare field op t, ?_, fun _ => rfl⟩
    rw [tokenize_textWith hfield hreads hsearch hhead, htok]
    have hk : ∀ u ∈ [t].head?, Clause.completesKeyword op u = false := by simpa using hkey
    exact .comparison hfield.startsClause hreads.isOperator
      (hreads.spells field [t] _ (.literal hlit) hk)

end Rule

namespace Query
open Rule

variable {s : Schema} {text field op w : String} {r : Rule} {f o t : Token} {ts : List Token}
  {c : Clause}

/-- The text is read to its end, as the tree of that one rule. -/
def ReadsAs (s : Schema) (text : String) (r : Rule) : Prop :=
  ∃ p, (parse s text).value = .ok p ∧ p.isComplete = true ∧ p.tree = .ofRule r

theorem readsAs_of_spells (h : Clause.Spells (tokenize text.toList) c) :
    ReadsAs s text (c.toRule s) := by
  obtain ⟨hparse, hc⟩ := (parseTokens_iff (s := s)).2
    ⟨.clause c, Expr.Spells.ofOperand (.clause h) .or, Nat.zero_le _, rfl⟩
  exact ⟨_, hparse, hc, rfl⟩

/-- An operand that is read as one literal, which completes no keyword, is compared with the
field. -/
theorem readsAs_textWith {cs : List Char} (hfield : IsField field) (hop : IsOperator op)
    (hhead : cs.head? ≠ some '=') (htok : tokenize cs = [t]) (ht : t.startsClause = true)
    (hkey : Clause.completesKeyword op t = false) :
    ReadsAs s (String.ofList (textWith field op cs))
      { field, operator := op, value := some (s.valueOf field t) } := by
  obtain ⟨c, hspells, hrule⟩ := exists_spells_textWith hfield hop hhead htok ht hkey
  rw [← String.toList_ofList (l := textWith field op cs)] at hspells
  have hread := readsAs_of_spells (s := s) hspells
  rwa [hrule] at hread

theorem toQuery_ofRule (r : Rule) : (RuleSet.ofRule r).toQuery = String.ofList r.queryText := rfl

/-- The text of a comparison with a scalar compares with what the scalar's token is read as. -/
theorem readsAs_toQuery {v : Value} (hfield : IsField field) (hop : IsOperator op)
    (ht : v.token? = some t) (hkey : Clause.completesKeyword op t = false) :
    ReadsAs s (RuleSet.ofRule { field, operator := op, value := some v }).toQuery
      { field, operator := op, value := some (s.valueOf field t) } := by
  have htok : tokenize (v.queryText ++ []) = t :: tokenize [] :=
    Value.tokenize_queryText ht (by simp [EndsWord])
  rw [List.append_nil, tokenize_nil] at htok
  rw [toQuery_ofRule, queryText_eq_textWith]
  have hhead : v.queryText.head? ≠ some '=' := by simpa using Value.head?_queryText_ne ht []
  exact readsAs_textWith hfield hop hhead htok (Value.startsClause_of_token? ht) hkey

/-- A text is read as one rule at most. -/
theorem ReadsAs.unique {r' : Rule} (h : ReadsAs s text r) (h' : ReadsAs s text r') : r = r' := by
  obtain ⟨p, hp, -, htree⟩ := h
  obtain ⟨p', hp', -, htree'⟩ := h'
  obtain rfl : p = p' := Except.ok.inj (hp.symm.trans hp')
  have hkids := congrArg RuleSet.children (htree.symm.trans htree')
  simpa [RuleSet.ofRule, RuleSet.ofChildren] using hkids

/-- Behind `not` the word `in` goes on with the operator, which is then without an operand. -/
theorem not_spells_not_in (hf : f.startsClause = true) (ho : o.isOperator = true)
    (hname : o.operatorName = "not") (hin : t.isWord "in" = true) {e : Expr} :
    ¬ Expr.Spells (.chain .or) [f, o, t] e := by
  intro h
  have hclause : Clause.read f [o, t] = .error .endOfText := by
    simp [Clause.read, ho, Clause.readComparison, hname, hin, Clause.readOperand,
      Clause.readLiteral, Except.map]
  have hread (d : Nat) : Expr.readOperand d [f, o, t] = .error ⟨.endOfText, []⟩ := by
    rw [Expr.readOperand_of_isLiteral _ (Token.isLiteral_of_startsClause hf), Expr.readLeaf,
      hclause]
    simp [Token.isRuleSetName_of_startsClause hf, Token.isLiteral_of_startsClause hf]
  obtain ⟨p, hp, -⟩ := Expr.readerAt_of_spells h (Nat.le_refl _)
  simp [Expr.readerAt, Expr.readDisjunction, Expr.readChain, hread] at hp

theorem token?_bareWord (hbare : isBareWord w = true) :
    (Value.string w).token? = some ⟨.word, w⟩ := by
  simp [Value.token?, hbare]

theorem queryText_bareWord (hbare : isBareWord w = true) : (Value.string w).queryText = w.toList := by
  simp [Value.queryText, Value.stringText, hbare]

theorem startsClause_word (hbare : isBareWord w = true) :
    (⟨.word, w⟩ : Token).startsClause = true :=
  Value.startsClause_of_token? (token?_bareWord hbare)

theorem tokenize_bareWord (hbare : isBareWord w = true) : tokenize w.toList = [⟨.word, w⟩] := by
  have htok : tokenize ((Value.string w).queryText ++ []) = ⟨.word, w⟩ :: tokenize [] :=
    Value.tokenize_queryText (token?_bareWord hbare) (by simp [EndsWord])
  rwa [List.append_nil, tokenize_nil, queryText_bareWord hbare] at htok

theorem head?_bareWord_ne (hbare : isBareWord w = true) : w.toList.head? ≠ some '=' := by
  simpa [queryText_bareWord hbare] using Value.head?_queryText_ne (token?_bareWord hbare) []

/-- A bare word that completes the operator before it is not compared with the field. -/
theorem not_readsAs_of_completesKeyword (hfield : IsField field) (hbare : isBareWord w = true)
    (hkey : Clause.completesKeyword op ⟨.word, w⟩ = true) (v : Value) :
    ¬ ReadsAs s (String.ofList (textWith field op w.toList))
      { field, operator := op, value := some v } := by
  simp only [Clause.completesKeyword, Bool.or_eq_true, Bool.and_eq_true, beq_iff_eq] at hkey
  have hlower : isLowerWord op.toList = true := by
    obtain ⟨rfl, -⟩ | ⟨rfl, -⟩ := hkey <;> decide +kernel
  have hop := readsOperator_word hlower
  have hname : (⟨.word, String.ofList (op.toList.map Char.toUpper)⟩ : Token).operatorName = op := by
    rw [Token.operatorName_word, toLower_upper hlower]
  have hsearch : isDocumentSearch { field, operator := op } = false := by
    rw [← Bool.not_eq_true]
    intro hsearch
    obtain ⟨-, rfl⟩ := isDocumentSearch_eq (.word hlower) hsearch
    obtain ⟨h, -⟩ | ⟨h, -⟩ := hkey <;> simp at h
  have htok := tokenize_textWith hfield hop hsearch (head?_bareWord_ne hbare)
  rw [tokenize_bareWord hbare, List.nil_append] at htok
  intro h
  obtain ⟨rfl, hin⟩ | ⟨rfl, hnull⟩ := hkey
  · obtain ⟨p, hp, hc, -⟩ := h
    obtain ⟨e, hspells, -⟩ := (parseTokens_iff (s := s)).1 ⟨hp, hc⟩
    rw [String.toList_ofList, htok] at hspells
    exact not_spells_not_in hfield.startsClause hop.isOperator hname hin hspells
  · have hspells : Clause.Spells (tokenize (textWith field "is" w.toList))
        (.nullTest field false) := by
      rw [htok]
      refine .comparison hfield.startsClause hop.isOperator ?_
      rw [hname]
      exact .null hnull
    rw [← String.toList_ofList (l := textWith field "is" w.toList)] at hspells
    have hrule := h.unique (readsAs_of_spells hspells)
    cases congrArg Rule.value hrule

/-- In quotes a string is read back, whatever the field and the operator are. -/
theorem readsAs_quote (hfield : IsField field) (hop : IsOperator op) (w : String) :
    ReadsAs s (String.ofList (textWith field op (Text.quote w.toList)))
      { field, operator := op, value := some (.string w) } := by
  have htok : tokenize (Text.quote w.toList) = [⟨.quoted, w⟩] := by
    simpa [tokenize_nil] using tokenize_quote w.toList []
  have hread := readsAs_textWith (s := s) hfield hop (by simp [Text.quote]) htok
    (by simp [Token.startsClause, Token.isLiteral, Token.isRuleSetName])
    (by simp [Clause.completesKeyword, Token.isWord])
  simpa [Schema.valueOf] using hread

/-- Some text is read as a tree in which the operator compares a field with a value, without help
from stored rulesets. -/
def Produced (op : String) : Prop :=
  ∃ (s : Schema) (text : String) (p : Parsed), s.store = none ∧ (parse s text).value = .ok p ∧
    ∃ r ∈ p.tree.toNode.rules, r.operator = op ∧ r.value ≠ none

theorem isOperator_of_stated (h : r.Stated s) (hvalue : r.value ≠ none) : IsOperator r.operator := by
  cases h with
  | search =>
    have hcontains : isLowerWord "contains".toList = true := by decide
    exact .word hcontains
  | nullTest => exact absurd rfl hvalue
  | compare _ _ hop => exact hop
  | among _ hop _ => exact isOperator_of_isListOperator hop

/-- The operators that texts give rise to, besides the null tests. -/
theorem produced_iff : Produced op ↔ IsOperator op := by
  constructor
  · rintro ⟨s, text, p, hs, hp, r, hr, rfl, hvalue⟩
    obtain ⟨e, hspells, -, htree⟩ := spells_of_parse hp
    rw [htree, Expr.rules_simplify_toTree hs] at hr
    obtain ⟨c, us, hc, hus, rfl⟩ := hspells.exists_clause hr
    refine isOperator_of_stated (stated_of_spells hc fun t ht => ?_) hvalue
    exact isFormed_of_mem_tokenize (List.mem_of_mem_take (hus.subset ht))
  · intro hop
    have ha : IsField "a" := ⟨(IsBare.of_all (by decide) (by decide)).isWord, by decide +kernel⟩
    let s : Schema := { field? := fun _ => none }
    obtain ⟨p, hp, -, htree⟩ := readsAs_quote (s := s) ha hop "b"
    refine ⟨s, _, p, rfl, hp, { field := "a", operator := op, value := some (.string "b") }, ?_, rfl,
      by simp⟩
    rw [htree]
    exact List.mem_singleton_self _

/-- A string that is written bare is read back exactly if its field leaves the word a string and the
word does not go on with the operator before it. In quotes it is always read back. -/
theorem readsAs_toQuery_iff_of_isBareWord (s : Schema) (hbare : isBareWord w = true)
    (hfield : IsField field) (hop : Produced op) :
    ReadsAs s (String.ofList (textWith field op (Text.quote w.toList)))
        { field, operator := op, value := some (.string w) } ∧
      (ReadsAs s (RuleSet.ofRule { field, operator := op, value := some (.string w) }).toQuery
          { field, operator := op, value := some (.string w) } ↔
        s.valueOf field ⟨.word, w⟩ = .string w ∧
          Clause.completesKeyword op ⟨.word, w⟩ = false) := by
  have hop := produced_iff.1 hop
  refine ⟨readsAs_quote hfield hop w, ?_⟩
  rw [toQuery_ofRule, queryText_eq_textWith, queryText_bareWord hbare]
  cases hkey : Clause.completesKeyword op ⟨.word, w⟩ with
  | true =>
    have hnot := not_readsAs_of_completesKeyword (s := s) hfield hbare hkey (.string w)
    simp [hnot]
  | false =>
    obtain ⟨c, hspells, hrule⟩ := exists_spells_textWith hfield hop (head?_bareWord_ne hbare)
      (tokenize_bareWord hbare) (startsClause_word hbare) hkey
    rw [← String.toList_ofList (l := textWith _ _ _)] at hspells
    have hread := readsAs_of_spells (s := s) hspells
    rw [hrule] at hread
    rw [and_iff_left rfl]
    constructor
    · intro h
      exact (Option.some.inj (congrArg Rule.value (h.unique hread))).symm
    · intro h
      rwa [h] at hread

/-- The string `42` on a field without a type and on a number field. -/
theorem readsAs_toQuery_iff_of_isBareWord_digits :
    let s : Schema :=
      { field? := fun name => if name = "age" then some { type := .number } else none }
    let r (field : String) : Rule := { field, operator := "=", value := some (.string "42") }
    ReadsAs s (RuleSet.ofRule (r "name")).toQuery (r "name") ∧
      ¬ ReadsAs s (RuleSet.ofRule (r "age")).toQuery (r "age") := by
  intro s r
  have hbare : isBareWord "42" = true := by decide +kernel
  have hname : IsField "name" := ⟨(IsBare.of_all (by decide) (by decide)).isWord, by decide +kernel⟩
  have hage : IsField "age" := ⟨(IsBare.of_all (by decide) (by decide)).isWord, by decide +kernel⟩
  have hop : Produced "=" := produced_iff.2 (.sign (by simp))
  refine ⟨(readsAs_toQuery_iff_of_isBareWord s hbare hname hop).2.2 ⟨rfl, rfl⟩, fun h => ?_⟩
  have hvalue := ((readsAs_toQuery_iff_of_isBareWord s hbare hage hop).2.1 h).1
  have hsame : (s.valueOf "age" ⟨.word, "42"⟩ == .string "42") = true :=
    hvalue ▸ Value.string_beq_self "42"
  exact absurd hsame (by decide +kernel)

end Query

end BoolQuery
