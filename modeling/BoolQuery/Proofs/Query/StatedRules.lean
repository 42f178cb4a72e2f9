import BoolQuery.Proofs.Query.Quotation
import BoolQuery.Proofs.Query.Writable

/-! The rules that queries state, and which of them are still stated by their own text. A text
that is read as an equal rule shows that the rule is legible, as long as every quotation in it
has to be one. -/

namespace BoolQuery

namespace Query
open Text

theorem isLowerWord_lower {cs : List Char} (h : isCapitalWord cs = true) :
    isLowerWord (cs.map Char.toLower) = true := by
  cases cs with
  | nil => cases h
  | cons c cs =>
    simp only [isCapitalWord, Bool.and_eq_true, List.all_eq_true, Bool.or_eq_true,
      beq_iff_eq] at h
    simp only [List.map_cons, isLowerWord, isLower_toLower h.1, Bool.true_and, List.all_map,
      List.all_eq_true]
    intro d hd
    rcases h.2 d hd with hupper | rfl
    · simp [isLower_toLower hupper]
    · decide

theorem map_toLower_of_isLowerWord {cs : List Char} (h : isLowerWord cs = true) :
    cs.map Char.toLower = cs := by
  have hsame : ∀ c ∈ cs, c.toLower = c :=
    forall_of_isLowerWord (fun c hc => toLower_of_not_isUpper (not_isUpper_of_isLower hc))
      (by decide) h
  exact (List.map_congr_left hsame).trans (List.map_id _)

/-- Whatever stands for an operator is known by a spelling in lower case. -/
theorem isOperator_of_token {o : Token} (h : o.isOperator = true) (hformed : o.IsFormed) :
    IsOperator o.operatorName := by
  obtain ⟨kind, text⟩ := o
  cases kind with
  | symbol | quoted => cases h
  | operator =>
    have hsigns : ∀ cs ∈ comparisonSigns, (cs.dropWhile (· == '!')).all Char.isAlpha = false ∧
        String.ofList cs ∈ ["=", "==", "!=", "<", "<=", ">", ">="] := by decide +kernel
    have hkeywords : ∀ cs ∈ Lexeme.negatedKeywords.map ('!' :: ·),
        (cs.dropWhile (· == '!')).all Char.isAlpha = true ∧
          String.ofList (cs.map Char.toLower) ∈ ["!contains", "!like"] := by decide +kernel
    rcases List.mem_append.1 hformed with hsign | hnegated
    · obtain ⟨hletters, hmem⟩ := hsigns _ hsign
      rw [String.ofList_toList] at hmem
      rw [Token.operatorName_of_sign rfl hletters]
      exact .sign hmem
    · obtain ⟨hletters, hmem⟩ := hkeywords _ hnegated
      rw [Token.operatorName_of_letters hletters, toLower_eq]
      exact .negated hmem
  | word =>
    rw [Token.operatorName_word, toLower_eq]
    refine .word ?_
    rw [String.toList_ofList]
    simp only [Token.isOperator, isKeywordOperator, Bool.or_eq_true, List.any_eq_true] at h
    rcases h with ⟨keyword, hmem, heq⟩ | hcapital
    · have hall : ∀ keyword ∈ keywords, isCapitalWord keyword.toList = true := by decide +kernel
      rw [equalsIgnoringCase_eq, beq_iff_eq] at heq
      show isLowerWord (text.toList.map Char.toLower) = true
      rw [heq]
      exact isLowerWord_lower (hall keyword hmem)
    · exact isLowerWord_lower hcapital

end Query

namespace Value
open Query

variable {s : Schema} {field : String} {t : Token} {v : Value}

/-- A literal is a string, unless its field is of a type that the literal can be read as. -/
theorem valueOf_cases (s : Schema) (field : String) (t : Token) :
    s.valueOf field t = .string t.text ∨ ∃ f, s.field? field = some f ∧
      ((∃ x, f.type = .number ∧ x.isFinite = true ∧ s.valueOf field t = .number x) ∨
        (∃ b, f.type = .boolean ∧ s.valueOf field t = .bool b) ∨
        ∃ d, f.type = .date ∧ s.valueOf field t = .date d) := by
  unfold Schema.valueOf
  split
  · exact .inl rfl
  split
  · exact .inl rfl
  · rename_i f hf
    unfold ofWord
    split
    · rename_i htype
      cases hx : Numeric.Double.read? (Text.trim t.text.toList) with
      | none => exact .inl rfl
      | some x =>
        have hfin := Numeric.Double.isFinite_of_read? hx
        exact .inr ⟨f, hf, .inl ⟨x, htype, hfin, rfl⟩⟩
    · rename_i htype
      exact .inr ⟨f, hf, .inr (.inl ⟨_, htype, rfl⟩)⟩
    · rename_i htype
      cases Date.read? t.text.toList with
      | none => exact .inl rfl
      | some d => exact .inr ⟨f, hf, .inr (.inr ⟨d, htype, rfl⟩)⟩
    · exact .inl rfl

/-- A literal is a scalar. -/
theorem exists_token?_valueOf (s : Schema) (field : String) (t : Token) :
    ∃ u, (s.valueOf field t).token? = some u := by
  rcases valueOf_cases s field t with h | ⟨_, _, ⟨_, _, _, h⟩ | ⟨_, _, h⟩ | ⟨_, _, h⟩⟩
  all_goals
    rw [h]
    exact ⟨_, rfl⟩

theorem beq_list_of_token? {u : Token} (h : v.token? = some u) (vs : List Value) :
    (v == list vs) = false ∧ (list vs == v) = false := by
  cases v with
  | list _ => cases h
  | _ => exact ⟨rfl, rfl⟩

theorem valueOf_word (hk : t.kind ≠ .quoted) :
    s.valueOf field ⟨.word, t.text⟩ = s.valueOf field t := by
  simp [Schema.valueOf, hk]

/-- A value that equals a literal suits the field, if a quotation has to be one. -/
theorem suits_of_beq (hneeded : t.kind = .quoted → isBareWord t.text = false)
    (h : (s.valueOf field t == v) = true) : v.Suits s field := by
  rcases valueOf_cases s field t with ht | ⟨f, hf, ⟨x, htype, hfin, ht⟩ | ⟨b, htype, ht⟩ |
    ⟨d, htype, ht⟩⟩
  · rw [ht] at h
    cases v with
    | string w =>
      obtain rfl : t.text = w := by simpa using (show (t.text == w) = true from h)
      by_cases hk : t.kind = .quoted
      · exact .inl (hneeded hk)
      · exact .inr ((valueOf_word hk).trans ht)
    | _ => cases h
  · rw [ht] at h
    cases v with
    | number y =>
      refine ⟨?_, f, hf, htype⟩
      have heq : Numeric.Double.equal x y = true := h
      simp only [Numeric.Double.equal, Bool.and_eq_true, beq_iff_eq] at heq
      rw [Numeric.Double.isFinite, ← heq.1.2]
      exact hfin
    | _ => cases h
  · rw [ht] at h
    cases v with
    | bool _ => exact ⟨f, hf, htype⟩
    | _ => cases h
  · rw [ht] at h
    cases v with
    | date _ => exact ⟨f, hf, htype⟩
    | _ => cases h

/-- What a literal completes, an equal value completes, if a quotation has to be one. -/
theorem completesKeyword_of_beq {op : String} {u : Token} (hlit : t.isLiteral = true)
    (hneeded : t.kind = .quoted → isBareWord t.text = false)
    (hkey : Clause.completesKeyword op t = false) (h : (s.valueOf field t == v) = true)
    (hu : v.token? = some u) : Clause.completesKeyword op u = false := by
  have hsuits := suits_of_beq hneeded h
  cases v with
  | string w =>
    have hw : t.text = w := by
      rcases valueOf_cases s field t with ht | ⟨_, _, ⟨_, _, _, ht⟩ | ⟨_, _, ht⟩ | ⟨_, _, ht⟩⟩
      · rw [ht] at h
        simpa using (show (t.text == w) = true from h)
      all_goals
        rw [ht] at h
        cases h
    cases hu
    split
    · rename_i hbare
      have hk : t.kind = .word := by
        rcases Bool.or_eq_true_iff.1 hlit with hk | hk
        · simpa using hk
        · rw [← hw, hneeded (by simpa using hk)] at hbare
          cases hbare
      obtain ⟨kind, text⟩ := t
      subst hk hw
      exact hkey
    · simp [Clause.completesKeyword, Token.isWord]
  | list _ => cases hu
  | _ => exact hsuits.completesKeyword (by simp) hu

end Value

namespace Rule
open Query

/-- The rules that clauses state. -/
inductive Stated (s : Schema) : Rule → Prop
  | search (t : Token) : Stated s (documentSearch (s.valueOf documentField t))
  | nullTest (field : String) (negated : Bool) : Stated s (nullTest field negated)
  | compare {op : String} (field : String) (t : Token) : IsOperator op →
      Stated s { field, operator := op, value := some (s.valueOf field t) }
  | among {op : String} (field : String) {ts : List Token} : isListOperator op = true →
      ts ≠ [] → Stated s { field, operator := op, value := some (.list (ts.map (s.valueOf field))) }

variable {s : Schema}

theorem stated_of_spellsOperand {field op : String} {ts : List Token} {c : Clause}
    (hop : IsOperator op) (h : Clause.SpellsOperand field op ts c) : (c.toRule s).Stated s := by
  cases h with
  | literal => exact .compare field _ hop
  | list hlist _ _ _ hne => exact .among field hlist hne

theorem stated_of_spells {ts : List Token} {c : Clause} (h : Clause.Spells ts c)
    (hformed : ∀ t ∈ ts, t.IsFormed) : (c.toRule s).Stated s := by
  cases h with
  | search => exact .search _
  | @comparison f o ts c hf ho hc =>
    have hop := isOperator_of_token ho (hformed o (by simp))
    generalize o.operatorName = op at hc hop
    cases hc with
    | null => exact .nullTest _ _
    | notNull => exact .nullTest _ _
    | notIn _ h => exact stated_of_spellsOperand .notIn h
    | operand _ h => exact stated_of_spellsOperand hop h

/-- A field that an operator follows is not quoted. -/
theorem isField_of_startsClause {f o : Token} {ts : List Token}
    (hquoted : WellQuoted (f :: o :: ts)) (hf : f.startsClause = true) (ho : o.isOperator = true)
    (hformed : f.IsFormed) : IsField f.text := by
  have hlit := Token.isLiteral_of_startsClause hf
  have hname := Token.isRuleSetName_of_startsClause hf
  have hk : f.kind = .word := by
    rcases Bool.or_eq_true_iff.1 hlit with hk | hk
    · simpa using hk
    · have hsymbol := (List.isChain_cons_cons.1 hquoted.followed).1 (by simpa using hk)
      rw [Token.isOperator_of_symbol hsymbol] at ho
      cases ho
  refine ⟨?_, ?_⟩
  · simpa only [Token.IsFormed, hk] using hformed
  · simpa [Token.isRuleSetName, hk] using hname

/-- A clause that is no search begins with its field and an operator. -/
theorem exists_field_of_spells {ts : List Token} {c : Clause} (h : Clause.Spells ts c)
    (hsearch : (c.toRule s).isDocumentSearch = false) : ∃ f o us, ts = f :: o :: us ∧
      f.startsClause = true ∧ o.isOperator = true ∧ (c.toRule s).field = f.text := by
  cases h with
  | search =>
    rw [Clause.toRule, isDocumentSearch_documentSearch] at hsearch
    cases hsearch
  | @comparison f o us c hf ho hc =>
    refine ⟨f, o, us, rfl, hf, ho, ?_⟩
    generalize o.operatorName = op at hc
    cases hc with
    | null | notNull => rfl
    | notIn _ h | operand _ h => cases h <;> rfl

/-- The field of a clause was written without quotes, unless the clause is a search. -/
theorem isField_of_spells {ts : List Token} {c : Clause} (h : Clause.Spells ts c)
    (hsearch : (c.toRule s).isDocumentSearch = false)
    (hformed : ∀ t ∈ ts, t.IsFormed) (hquoted : WellQuoted ts) : IsField (c.toRule s).field := by
  obtain ⟨f, o, us, rfl, hf, ho, hfield⟩ := exists_field_of_spells h hsearch
  rw [hfield]
  exact isField_of_startsClause hquoted hf ho (hformed f (by simp))

/-- A scalar is compared with by one literal, which is no part of the operator. -/
theorem exists_literal_of_spells {ts : List Token} {c : Clause} {v : Value} {u : Token}
    (h : Clause.Spells ts c) (hu : v.token? = some u)
    (hv : ((c.toRule s).value == some v) = true) :
    ∃ t ∈ ts, t.isLiteral = true ∧ (s.valueOf (c.toRule s).field t == v) = true ∧
      Clause.completesKeyword (c.toRule s).operator t = false := by
  have hlist (vs : List Value) := (Value.beq_list_of_token? hu vs).2
  cases h with
  | @search t ht =>
    exact ⟨t, by simp, Token.isLiteral_of_startsClause ht, hv,
      by simp [Clause.completesKeyword, Clause.toRule, documentSearch]⟩
  | @comparison f o us c hf ho hc =>
    generalize o.operatorName = op at hc
    cases hc with
    | null | notNull => cases hv
    | @notIn i us c _ hop =>
      cases hop with
      | @literal t ht =>
        exact ⟨t, by simp, ht, hv, by simp [Clause.completesKeyword, Clause.toRule]⟩
      | list => exact absurd hv (by simp [Clause.toRule, hlist])
    | operand hk hop =>
      cases hop with
      | literal ht => exact ⟨_, by simp, ht, hv, hk⟩
      | list => exact absurd hv (by simp [Clause.toRule, hlist])

theorem mem_of_lists {ts us : List Token} (h : Clause.Lists ts us) : ∀ t ∈ us, t ∈ ts := by
  induction h with
  | nil => simp
  | cons _ _ ih =>
    intro t ht
    rcases List.mem_cons.1 ht with rfl | ht
    · simp
    · simp [ih t ht]
  | comma _ _ _ ih =>
    intro t ht
    rcases List.mem_cons.1 ht with rfl | ht
    · simp
    · simp [ih t ht]

theorem exists_literals_of_spellsOperand {field op : String} {ts : List Token} {c : Clause}
    {vs : List Value} (h : Clause.SpellsOperand field op ts c)
    (hv : ((c.toRule s).value == some (.list vs)) = true) :
    ∃ us : List Token, (∀ t ∈ us, t ∈ ts) ∧
      Value.equalAll (us.map (s.valueOf (c.toRule s).field)) vs = true := by
  cases h with
  | @literal t ht =>
    obtain ⟨u, hu⟩ := Value.exists_token?_valueOf s field t
    exact absurd hv (by simp [Clause.toRule, (Value.beq_list_of_token? hu vs).1])
  | @list l r ts us _ _ _ hlists _ =>
    refine ⟨us, ?_, hv⟩
    intro t ht
    simp [mem_of_lists hlists t ht]

/-- A list is compared with by as many literals. -/
theorem exists_literals_of_spells {ts : List Token} {c : Clause} {vs : List Value}
    (h : Clause.Spells ts c) (hv : ((c.toRule s).value == some (.list vs)) = true) :
    ∃ us : List Token, (∀ t ∈ us, t ∈ ts) ∧
      Value.equalAll (us.map (s.valueOf (c.toRule s).field)) vs = true := by
  cases h with
  | @search t ht =>
    obtain ⟨u, hu⟩ := Value.exists_token?_valueOf s documentField t
    exact absurd hv (by simp [Clause.toRule, documentSearch, (Value.beq_list_of_token? hu vs).1])
  | @comparison f o us c hf ho hc =>
    generalize o.operatorName = op at hc
    cases hc with
    | null | notNull => cases hv
    | notIn _ hop =>
      obtain ⟨us, hmem, heq⟩ := exists_literals_of_spellsOperand hop hv
      exact ⟨us, fun t ht => by simp [hmem t ht], heq⟩
    | operand _ hop =>
      obtain ⟨us, hmem, heq⟩ := exists_literals_of_spellsOperand hop hv
      exact ⟨us, fun t ht => List.mem_cons_of_mem _ (List.mem_cons_of_mem _ (hmem t ht)), heq⟩

/-- A search is one by its operator in lower case. -/
theorem isDocumentSearch_eq {field op : String} (hop : IsOperator op)
    (h : isDocumentSearch { field, operator := op } = true) :
    field = documentField ∧ op = "contains" := by
  simp only [isDocumentSearch, Bool.and_eq_true, beq_iff_eq, Text.equalsIgnoringCase_eq] at h
  have hno : ∀ op ∈ ["=", "==", "!=", "<", "<=", ">", ">=", "!contains", "!like", "not in"],
      op.toList.map Char.toLower = "contains".toList.map Char.toLower → op = "contains" := by
    decide +kernel
  have hword (op : String) (hw : isLowerWord op.toList = true) :
      op.toList.map Char.toLower = "contains".toList.map Char.toLower → op = "contains" := by
    intro heq
    rw [map_toLower_of_isLowerWord hw] at heq
    exact String.toList_inj.1 heq
  exact ⟨h.1, hop.of_forall hno hword h.2⟩

theorem isDocumentSearch_of_beq {r r' : Rule} (h : (r == r') = true) :
    r.isDocumentSearch = r'.isDocumentSearch := by
  obtain ⟨hfield, hop, _⟩ := beq_iff.1 h
  rw [isDocumentSearch, isDocumentSearch, hfield, hop]

/-- A value that equals a literal of a clause is read back from its own text. -/
theorem fits_of_spells {r : Rule} {v : Value} {u : Token} (hu : v.token? = some u)
    (hr : r.value = some v) {ts : List Token} {c : Clause} (h : Clause.Spells ts c)
    (hquoted : WellQuoted ts) (heq : (c.toRule s == r) = true) :
    v.Fits s r.field ∧ ∀ t, v.token? = some t → Clause.completesKeyword r.operator t = false := by
  obtain ⟨hfield, hop, hvalue, _⟩ := beq_iff.1 heq
  obtain ⟨t, ht, hlit, hv, hkey⟩ := exists_literal_of_spells h hu (hr ▸ hvalue)
  rw [hfield] at hv
  rw [hop] at hkey
  have hneeded := hquoted.needed t ht
  exact ⟨(Value.suits_of_beq hneeded hv).fits,
    fun u hu => Value.completesKeyword_of_beq hlit hneeded hkey hv hu⟩

theorem forall_beq_of_equalAll {xs ys : List Value} (h : Value.equalAll xs ys = true) :
    ∀ y ∈ ys, ∃ x ∈ xs, (x == y) = true := by
  induction ys generalizing xs with
  | nil => simp
  | cons y ys ih =>
    cases xs with
    | nil => cases h
    | cons x xs =>
      obtain ⟨hxy, hrest⟩ := Bool.and_eq_true_iff.1 h
      intro z hz
      rcases List.mem_cons.1 hz with rfl | hz
      · exact ⟨x, by simp, hxy⟩
      · obtain ⟨w, hw, hwz⟩ := ih hrest z hz
        exact ⟨w, by simp [hw], hwz⟩

/-- A rule that a query states is legible, if some text with well-placed quotations is read as an
equal rule. -/
theorem Stated.legible {r : Rule} (hr : r.Stated s) {ts : List Token} {c : Clause}
    (h : Clause.Spells ts c) (hformed : ∀ t ∈ ts, t.IsFormed) (hquoted : WellQuoted ts)
    (heq : (c.toRule s == r) = true) : r.Legible s := by
  obtain ⟨hfield, _, hvalue, _⟩ := beq_iff.1 heq
  have hisfield (hsearch : r.isDocumentSearch = false) : IsField r.field := by
    rw [← isDocumentSearch_of_beq heq] at hsearch
    exact hfield ▸ isField_of_spells h hsearch hformed hquoted
  cases hr with
  | search t =>
    obtain ⟨u, hu⟩ := Value.exists_token?_valueOf s documentField t
    exact .search (fits_of_spells hu rfl h hquoted heq).1
  | nullTest field negated =>
    exact .nullTest negated (hisfield (isDocumentSearch_nullTest field negated))
  | @compare op field t hoperator =>
    obtain ⟨u, hu⟩ := Value.exists_token?_valueOf s field t
    obtain ⟨hfits, hkey⟩ := fits_of_spells hu rfl h hquoted heq
    cases hsearch : isDocumentSearch { field, operator := op } with
    | true =>
      obtain ⟨rfl, rfl⟩ := isDocumentSearch_eq hoperator hsearch
      exact .search hfits
    | false => exact .compare (hisfield hsearch) hoperator hsearch hfits hkey
  | @among op field us hlist hne =>
    obtain ⟨ws, hmem, hws⟩ := exists_literals_of_spells h hvalue
    rw [hfield] at hws
    refine .among (hisfield (isDocumentSearch_of_isListOperator hlist)) hlist (by simp [hne])
      fun v hv => ?_
    obtain ⟨x, hx, hxv⟩ := forall_beq_of_equalAll hws v hv
    obtain ⟨t, ht, rfl⟩ := List.mem_map.1 hx
    exact (Value.suits_of_beq (hquoted.needed t (hmem t ht)) hxv).fits

end Rule

end BoolQuery
