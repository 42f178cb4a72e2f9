import BoolQuery.Proofs.Query.TreeMeaning
import BoolQuery.Proofs.Query.Unquoting

/-! Where the rules of an expression stand among its tokens. Between two joiners stands a name or
a rule, and as a name is a single token, whoever counts what is more than a name knows which rule
is next. -/

namespace BoolQuery.Query

namespace Token

/-- `&` or `|`. -/
def isJoiner (t : Token) : Bool := t.isSymbol '&' || t.isSymbol '|'

/-- A token that can stand between a joiner and the next leaf. -/
def isOpening (t : Token) : Bool := t.isSymbol '!' || t.isSymbol '('

/-- A token that can stand beside a leaf, as joiners do, but does not end its place. -/
def surrounds (t : Token) : Bool := t.isOpening || t.isSymbol ')'

variable {t : Token} {c : Char}

theorem isJoiner_of_isSymbol (h : t.isSymbol c = true) (hc : c ≠ '&' ∧ c ≠ '|') :
    t.isJoiner = false := by
  simp [isJoiner, isSymbol_ne h hc.1, isSymbol_ne h hc.2]

theorem isJoiner_of_kind (h : t.kind ≠ .symbol) : t.isJoiner = false := by
  simp [isJoiner, isSymbol_of_kind h]

theorem isOpening_of_kind (h : t.kind ≠ .symbol) : t.isOpening = false := by
  simp [isOpening, isSymbol_of_kind h]

theorem surrounds_of_kind (h : t.kind ≠ .symbol) : t.surrounds = false := by
  simp [surrounds, isOpening_of_kind h, isSymbol_of_kind h]

theorem surrounds_of_isOpening (h : t.isOpening = true) : t.surrounds = true :=
  Bool.or_eq_true_iff.2 (.inl h)

theorem surrounds_of_isJoiner (h : t.isJoiner = true) : t.surrounds = false := by
  rcases Bool.or_eq_true_iff.1 h with h | h
  · simp [surrounds, isOpening, isSymbol_ne h (by decide : '&' ≠ '!'),
      isSymbol_ne h (by decide : '&' ≠ '('), isSymbol_ne h (by decide : '&' ≠ ')')]
  · simp [surrounds, isOpening, isSymbol_ne h (by decide : '|' ≠ '!'),
      isSymbol_ne h (by decide : '|' ≠ '('), isSymbol_ne h (by decide : '|' ≠ ')')]

theorem isJoiner_of_isLiteral (h : t.isLiteral = true) : t.isJoiner = false :=
  isJoiner_of_kind (kind_of_isLiteral h)

theorem symbol_of_isOpening (h : t.isOpening = true) : t.kind = .symbol :=
  (Bool.or_eq_true_iff.1 h).elim kind_of_isSymbol kind_of_isSymbol

theorem isJoiner_of_joinSign {condition : Condition} (h : t.isSymbol (joinSign condition) = true) :
    t.isJoiner = true := by
  cases condition with
  | and => exact Bool.or_eq_true_iff.2 (.inl h)
  | or => exact Bool.or_eq_true_iff.2 (.inr h)

theorem isJoiner_joinSign (condition : Condition) :
    (⟨.symbol, String.ofList [joinSign condition]⟩ : Token).isJoiner = true :=
  isJoiner_of_joinSign (by simp [isSymbol] : isSymbol (joinSign condition) _ = true)

theorem unquoted_of_isRuleSetName (h : t.isRuleSetName = true) : '"' ∉ t.text.toList := by
  simp only [isRuleSetName, Query.isRuleSetName, Text.everyChar, Bool.and_eq_true,
    List.all_eq_true] at h
  intro hmem
  exact absurd (h.2.1 _ hmem) (by decide)

end Token

/-- Whether the tokens of a place state a rule: they are more than a name. -/
def statesRule : List Token → Bool
  | [] => false
  | [t] => !t.isRuleSetName
  | _ :: _ :: _ => true

/-- What stands in the places between joiners, without what surrounds it. -/
def places (ts : List Token) : List (List Token) :=
  (ts.filter (!·.surrounds)).splitOnP Token.isJoiner

/-- How many rules the tokens state, going by their places. -/
def stated (ts : List Token) : Nat := (places ts).countP statesRule

section Stated

variable {t u : Token} {ts us bs : List Token}

theorem stated_nil : stated [] = 0 := rfl

theorem stated_join (ht : t.isJoiner = true) (ts us : List Token) :
    stated (ts ++ t :: us) = stated ts + stated us := by
  rw [stated, places, List.filter_append,
    List.filter_cons_of_pos (by simp [Token.surrounds_of_isJoiner ht]),
    List.splitOnP_append_cons _ _ ht, List.countP_append]
  rfl

theorem places_append_left (hbs : ∀ b ∈ bs, b.surrounds = true) (ts : List Token) :
    places (bs ++ ts) = places ts := by
  have hnil : bs.filter (!·.surrounds) = [] := by
    simpa [List.filter_eq_nil_iff] using hbs
  rw [places, List.filter_append, hnil]
  rfl

theorem stated_append_left (hbs : ∀ b ∈ bs, b.surrounds = true) (ts : List Token) :
    stated (bs ++ ts) = stated ts :=
  congrArg (List.countP statesRule) (places_append_left hbs ts)

theorem stated_cons (ht : t.surrounds = true) (ts : List Token) : stated (t :: ts) = stated ts :=
  have hts : ∀ b ∈ [t], b.surrounds = true := by simpa using ht
  stated_append_left hts ts

theorem stated_concat (ht : t.surrounds = true) (ts : List Token) :
    stated (ts ++ [t]) = stated ts := by
  simp [stated, places, ht]

/-- A place without joiners states one rule at most. -/
theorem stated_of_not_isJoiner (h : ∀ t ∈ ts, t.isJoiner = false) :
    stated ts = if statesRule (ts.filter (!·.surrounds)) then 1 else 0 := by
  rw [stated, places, List.splitOnP_eq_singleton fun t ht => h t (List.mem_of_mem_filter ht),
    List.countP_singleton]

theorem places_cons (hs : t.surrounds = false) (hj : t.isJoiner = false) (ts : List Token) :
    ∃ p ps, places ts = p :: ps ∧ places (t :: ts) = (t :: p) :: ps := by
  obtain ⟨p, ps, hp⟩ := List.exists_cons_of_ne_nil
    (List.splitOnP_ne_nil Token.isJoiner (ts.filter (!·.surrounds)))
  refine ⟨p, ps, hp, ?_⟩
  rw [places, List.filter_cons_of_pos (by simp [hs]), List.splitOnP_cons_eq_if_modifyHead,
    if_neg (by simp [hj]), hp, List.modifyHead_cons]

theorem statesRule_cons {p : List Token} (h : statesRule p = true) (t : Token) :
    statesRule (t :: p) = true := by
  cases p with
  | nil => cases h
  | cons _ _ => rfl

theorem stated_le_cons (t : Token) (ts : List Token) : stated ts ≤ stated (t :: ts) := by
  by_cases hs : t.surrounds = true
  · exact Nat.le_of_eq (stated_cons hs ts).symm
  by_cases hj : t.isJoiner = true
  · have hjoin : stated (t :: ts) = stated [] + stated ts := stated_join hj [] ts
    omega
  · obtain ⟨p, ps, hts, htts⟩ := places_cons (by simpa using hs) (by simpa using hj) ts
    rw [stated, stated, hts, htts, List.countP_cons, List.countP_cons]
    refine Nat.add_le_add_left ?_ _
    by_cases hp : statesRule p = true
    · simp [hp, statesRule_cons hp]
    · simp [hp]

theorem stated_le_append (ts us : List Token) : stated us ≤ stated (ts ++ us) := by
  induction ts with
  | nil => exact Nat.le_refl _
  | cons t ts ih => exact Nat.le_trans ih (stated_le_cons t _)

/-- A token that is neither a symbol nor a name is part of a rule. -/
theorem stated_pos_of_mem (hk : t.kind ≠ .symbol) (hname : t.isRuleSetName = false)
    (ht : t ∈ ts) : 0 < stated ts := by
  obtain ⟨as, us, rfl⟩ := List.append_of_mem ht
  refine Nat.lt_of_lt_of_le ?_ (stated_le_append as _)
  obtain ⟨p, ps, _, hplaces⟩ :=
    places_cons (Token.surrounds_of_kind hk) (Token.isJoiner_of_kind hk) us
  have hrule : statesRule (t :: p) = true := by
    cases p with
    | nil => simp [statesRule, hname]
    | cons _ _ => rfl
  simp [stated, hplaces, hrule]

/-- Two tokens that are no symbols are part of a rule, if nothing is between them but what could
surround a leaf. -/
theorem stated_pos_of_pair (ht : t.kind ≠ .symbol) (hbs : ∀ b ∈ bs, b.surrounds = true)
    (hu : u.kind ≠ .symbol) (ts us : List Token) : 0 < stated (ts ++ t :: (bs ++ u :: us)) := by
  refine Nat.lt_of_lt_of_le ?_ (stated_le_append ts _)
  obtain ⟨p, ps, _, hu⟩ := places_cons (Token.surrounds_of_kind hu) (Token.isJoiner_of_kind hu) us
  obtain ⟨q, qs, hq, ht⟩ := places_cons (Token.surrounds_of_kind ht) (Token.isJoiner_of_kind ht)
    (bs ++ u :: us)
  rw [places_append_left hbs, hu] at hq
  obtain ⟨rfl, rfl⟩ := List.cons.inj hq
  simp [stated, ht, statesRule]

/-- What ends in a joiner leaves no place open. -/
theorem stated_append_of_last (hts : ∀ t ∈ ts.getLast?, t.isJoiner = true) (us : List Token) :
    stated (ts ++ us) = stated ts + stated us := by
  rcases List.eq_nil_or_concat ts with rfl | ⟨as, t, rfl⟩
  · rw [stated_nil, Nat.zero_add]
    rfl
  · have ht := hts t (by simp)
    have hone := stated_join ht as []
    rw [stated_nil] at hone
    rw [List.concat_eq_append, List.append_assoc, List.singleton_append, stated_join ht, hone]
    rfl

/-- A clause behind some tokens that end in a joiner is among them or begins behind them. -/
theorem exists_of_last {vs cs rest : List Token} (h : ts ++ us = vs ++ (cs ++ rest))
    (hts : ∀ t ∈ ts.getLast?, t.isJoiner = true) (hcs : ∀ t ∈ cs, t.isJoiner = false) :
    (∃ ms, vs = ts ++ ms ∧ us = ms ++ (cs ++ rest)) ∨ cs <:+: ts := by
  rcases List.append_eq_append_iff.1 h with hbehind | ⟨ms, rfl, htail⟩
  · exact .inl hbehind
  rcases List.eq_nil_or_concat' ms with rfl | ⟨ms, t, rfl⟩
  · exact .inl ⟨[], by simp, htail.symm⟩
  have ht : t.isJoiner = true := hts t (by simp)
  rw [List.append_assoc] at htail
  rcases exists_of_append_cons htail.symm with ⟨es, rfl, _⟩ | ⟨es, rfl, _⟩
  · exact .inr ⟨vs, es ++ [t], by simp⟩
  · rw [hcs t (by simp)] at ht
    cases ht

end Stated

/-- Before the first quotation stands no quotation mark, if nothing but symbols and names does. -/
theorem exists_quotation_of_tokenize {cs : List Char} {os ts : List Token} {t : Token}
    (h : tokenize cs = os ++ t :: ts)
    (hos : ∀ o ∈ os, o.kind = .symbol ∨ o.isRuleSetName = true) (ht : t.kind = .quoted) :
    ∃ ws inside, cs = ws ++ '"' :: inside ∧ '"' ∉ ws ∧
      t.text = String.ofList (Lexeme.unquote inside).1 ∧
      ts = tokenize (Lexeme.unquote inside).2 := by
  fun_induction tokenize cs generalizing os with
  | case1 => simp at h
  | case2 c cs hb ih =>
    obtain ⟨ws, inside, rfl, hws, htext, hts⟩ := ih h hos
    refine ⟨c :: ws, inside, rfl, ?_, htext, hts⟩
    have hc : '"' ≠ c := by
      rintro rfl
      exact absurd hb (by decide)
    simp [hc, hws]
  | case3 c cs hb x hx ih =>
    rcases os with _ | ⟨o, os⟩
    · obtain ⟨rfl, rfl⟩ := List.cons.inj h
      rcases cases_of_read? hx with hk | ⟨hk, _⟩ | ⟨_, rfl⟩ | ⟨rfl, rfl⟩
      · simp [ht] at hk
      · simp [ht] at hk
      · cases ht
      · exact ⟨[], cs, rfl, by simp, rfl, rfl⟩
    · obtain ⟨rfl, htail⟩ := List.cons.inj h
      obtain ⟨ws, inside, hws, hfree, htext, hts⟩ := ih htail fun u hu => hos u (by simp [hu])
      have ho := hos x.1 (by simp)
      rcases cases_of_read? hx with hk | ⟨hk, hcs⟩ | ⟨hc, rfl⟩ | ⟨_, rfl⟩
      · simp [hk, Token.isRuleSetName] at ho
      · have hname := ho.resolve_left (by simp [hk])
        refine ⟨x.1.text.toList ++ ws, inside, by rw [hcs, hws]; simp, ?_, htext, hts⟩
        simpa [hfree] using Token.unquoted_of_isRuleSetName hname
      · refine ⟨c :: ws, inside, congrArg _ hws, ?_, htext, hts⟩
        have hc : '"' ≠ c := by
          rintro rfl
          exact absurd hc (by decide)
        simp [hc, hfree]
      · simp [Token.isRuleSetName] at ho
  | case4 c cs hb hnone => exact absurd hnone (Lexeme.read?_ne_none hb cs)

/-- A link with a word ends in a part of a rule, and no quotation comes before that. -/
theorem ReachesWord.exists_tokens {as ds : List Char} (hds : ReachesWord ds) (has : '"' ∉ as)
    (rest : List Char) : ∃ us vs, tokenize (as ++ (ds ++ rest)) = us ++ vs ∧
      (∀ u ∈ us, u.kind ≠ .quoted) ∧ ∀ ts, 0 < stated (us ++ ts) := by
  obtain ⟨hlink, hopening, hc, hmark⟩ := hds
  rename_i link opening c
  have hquote : c ≠ '"' := by
    rintro rfl
    exact absurd hmark (by decide)
  obtain ⟨us, o, hus, ho, htok⟩ := hlink.precedes has
  obtain ⟨w, vs, hw, hwk⟩ := exists_word_of_head hc hquote rest
  obtain ⟨ps, hps, hps', hrest⟩ : ∃ ps : List Token, (∀ p ∈ ps, p.surrounds = true) ∧
      (∀ p ∈ ps, p.kind ≠ .quoted) ∧ tokenize (opening ++ c :: rest) = ps ++ w :: vs := by
    rcases hopening with rfl | rfl
    · exact ⟨[], by simp, by simp, hw⟩
    · refine ⟨[⟨.symbol, "("⟩], by simp [Token.surrounds, Token.isOpening, Token.isSymbol],
        by simp, ?_⟩
      rw [List.singleton_append, tokenize_symbol (by decide) (by decide), hw]
      rfl
  have hhead : (opening ++ c :: rest).head? ≠ some '=' := by
    rcases hopening with rfl | rfl
    · rintro heq
      obtain rfl := Option.some.inj heq
      exact absurd hc (by decide)
    · simp
  have hsplit : as ++ (link ++ (opening ++ [c]) ++ rest) =
      as ++ link ++ (opening ++ c :: rest) := by simp
  refine ⟨us ++ o :: (ps ++ [w]), vs, ?_, ?_, fun ts => ?_⟩
  · rw [hsplit, htok _ hhead, hrest]
    simp
  · intro u hu
    simp only [List.mem_append, List.mem_cons, List.not_mem_nil, or_false] at hu
    rcases hu with hu | rfl | hu | rfl
    · exact hus u (by simp [hu])
    · exact hus u (by simp)
    · exact hps' u hu
    · simp [hwk]
  · rw [List.append_assoc, List.cons_append, List.append_assoc, List.singleton_append]
    exact stated_pos_of_pair ho hps (by simp [hwk]) us ts

/-- A link with a word before the first quotation is part of a rule. -/
theorem stated_pos_of_reachesWord {ds ws inside : List Char} {os ts : List Token} {t : Token}
    (hds : ReachesWord ds) (hwithin : ds <:+: ws) (hws : '"' ∉ ws)
    (h : tokenize (ws ++ '"' :: inside) = os ++ t :: ts) (ht : t.kind = .quoted) :
    0 < stated os := by
  obtain ⟨as, bs, rfl⟩ := hwithin
  have has : '"' ∉ as := fun hmem => hws (by simp [hmem])
  obtain ⟨us, vs, htok, hus, hpos⟩ := hds.exists_tokens has (bs ++ '"' :: inside)
  have hsplit : as ++ ds ++ bs ++ '"' :: inside = as ++ (ds ++ (bs ++ '"' :: inside)) := by simp
  rw [hsplit, htok] at h
  rcases exists_of_append_cons h.symm with ⟨es, rfl, _⟩ | ⟨es, rfl, _⟩
  · exact hpos es
  · exact absurd ht (hus t (by simp))

/-- No quotation that begins in a field stands for the field, if another token follows it and no
rule is stated before it. -/
theorem kind_ne_quoted_of_follows {field : String} {after : List Char} {os ts : List Token}
    {t u : Token} (hmark : '"' ∈ field.toList) (hafter : Follows after)
    (h : tokenize (field.toList ++ after) = os ++ t :: u :: ts) (hos : stated os = 0)
    (htext : t.text = field) : t.kind ≠ .quoted := by
  intro hk
  have hnames : ∀ o ∈ os, o.kind = .symbol ∨ o.isRuleSetName = true := by
    intro o ho
    by_contra hno
    rw [not_or, Bool.not_eq_true] at hno
    exact absurd hos (Nat.ne_of_gt (stated_pos_of_mem hno.1 hno.2 ho))
  obtain ⟨ws, inside, hsplit, hws, hread, hts⟩ := exists_quotation_of_tokenize h hnames hk
  rcases exists_of_append_cons hsplit.symm with ⟨es, rfl, _⟩ | ⟨cs, hfield, rfl⟩
  · exact hws (by simp [hmark])
  obtain ⟨raw, hraw, hrest⟩ := readsInside_unquote (cs ++ after)
  have hinside : (Lexeme.unquote (cs ++ after)).1 = ws ++ '"' :: cs := by
    rw [← hfield, ← htext, hread, String.toList_ofList]
  rw [hinside] at hraw
  rcases hrest with hclosed | hnil
  · obtain ⟨ds, hds, hwithin⟩ := hafter.exists_infix hraw hclosed
    rw [hsplit] at h
    have hpos := stated_pos_of_reachesWord hds hwithin hws h hk
    omega
  · rw [hnil, tokenize_nil] at hts
    cases hts

namespace Clause

theorem Lists.not_isJoiner {ts vs : List Token} (h : Lists ts vs) :
    ∀ t ∈ ts, t.isJoiner = false := by
  induction h with
  | nil => simp
  | cons ht _ ih => exact List.forall_mem_cons.2 ⟨Token.isJoiner_of_isLiteral ht, ih⟩
  | comma ht hc _ ih =>
    have hcomma := Token.isJoiner_of_isSymbol hc (by decide)
    exact List.forall_mem_cons.2
      ⟨Token.isJoiner_of_isLiteral ht, List.forall_mem_cons.2 ⟨hcomma, ih⟩⟩

theorem SpellsOperand.not_isJoiner {field operator : String} {ts : List Token} {c : Clause}
    (h : SpellsOperand field operator ts c) : ∀ t ∈ ts, t.isJoiner = false := by
  cases h with
  | literal hv => simpa using Token.isJoiner_of_isLiteral hv
  | list _ hl hr hlist _ =>
    have hopen := Token.isJoiner_of_isSymbol hl (by decide)
    have hclose := Token.isJoiner_of_isSymbol hr (by decide)
    refine List.forall_mem_cons.2 ⟨hopen, List.forall_mem_append.2 ⟨hlist.not_isJoiner, ?_⟩⟩
    simpa using hclose

theorem SpellsComparison.not_isJoiner {field operator : String} {ts : List Token} {c : Clause}
    (h : SpellsComparison field operator ts c) : ∀ t ∈ ts, t.isJoiner = false := by
  have hword {t : Token} {w : String} (h : t.isWord w = true) : t.isJoiner = false :=
    Token.isJoiner_of_isLiteral (Token.isLiteral_of_isWord h)
  cases h with
  | null hn => simpa using hword hn
  | notNull hu hn => simpa using And.intro (hword hu) (hword hn)
  | notIn hi hop => exact List.forall_mem_cons.2 ⟨hword hi, hop.not_isJoiner⟩
  | operand _ hop => exact hop.not_isJoiner

/-- There is no joiner in a clause. -/
theorem Spells.not_isJoiner {ts : List Token} {c : Clause} (h : Spells ts c) :
    ∀ t ∈ ts, t.isJoiner = false := by
  cases h with
  | search ht => simpa using Token.isJoiner_of_isLiteral (Token.isLiteral_of_startsClause ht)
  | @comparison f o ts _ hf ho hc =>
    have hfield := Token.isJoiner_of_isLiteral (Token.isLiteral_of_startsClause hf)
    have hk : o.kind ≠ .symbol := by
      intro hk
      rw [Token.isOperator_of_symbol hk] at ho
      cases ho
    exact List.forall_mem_cons.2
      ⟨hfield, List.forall_mem_cons.2 ⟨Token.isJoiner_of_kind hk, hc.not_isJoiner⟩⟩

/-- A clause states a rule. -/
theorem Spells.stated_eq_one {ts : List Token} {c : Clause} (h : Spells ts c) : stated ts = 1 := by
  rw [stated_of_not_isJoiner h.not_isJoiner]
  cases h with
  | @search t ht =>
    have hlit := Token.isLiteral_of_startsClause ht
    have hkept := Token.surrounds_of_kind (Token.kind_of_isLiteral hlit)
    simp [hkept, statesRule, Token.isRuleSetName_of_startsClause ht]
  | @comparison f o ts _ hf ho hc =>
    have hlit := Token.isLiteral_of_startsClause hf
    have hkept := Token.surrounds_of_kind (Token.kind_of_isLiteral hlit)
    have hkept' : o.surrounds = false := Token.surrounds_of_kind fun hk => by
      rw [Token.isOperator_of_symbol hk] at ho
      cases ho
    simp [hkept, hkept', statesRule]

end Clause

namespace Expr

variable {level : Level} {ts : List Token} {e : Expr}

/-- Every rule of an expression is stated by a clause among its tokens. -/
theorem Spells.exists_clause {s : Schema} (h : Spells level ts e) {r : Rule} (hr : r ∈ e.rules s) :
    ∃ c us, Clause.Spells us c ∧ us <:+: ts ∧ c.toRule s = r := by
  induction h with
  | @clause ts c hc =>
    obtain rfl : r = c.toRule s := by simpa [rules] using hr
    exact ⟨c, ts, hc, List.infix_refl ts, rfl⟩
  | reference => cases hr
  | not _ _ ih =>
    obtain ⟨c, us, hc, hus, heq⟩ := ih hr
    exact ⟨c, us, hc, hus.trans (List.suffix_cons _ _).isInfix, heq⟩
  | @group l r' ts e _ _ _ ih =>
    obtain ⟨c, us, hc, hus, heq⟩ := ih hr
    exact ⟨c, us, hc, hus.trans ⟨[l], [r'], by simp⟩, heq⟩
  | single _ ih => exact ih hr
  | @join _ t ts us l r' _ _ _ ihl ihr =>
    rcases List.mem_append.1 hr with hr | hr
    · obtain ⟨c, vs, hc, hvs, heq⟩ := ihl hr
      exact ⟨c, vs, hc, hvs.trans ⟨[], t :: us, by simp⟩, heq⟩
    · obtain ⟨c, vs, hc, hvs, heq⟩ := ihr hr
      exact ⟨c, vs, hc, hvs.trans ⟨ts ++ [t], [], by simp⟩, heq⟩

/-- An expression has as many rules as its tokens state. -/
theorem Spells.length_rules (s : Schema) (h : Spells level ts e) :
    (e.rules s).length = stated ts := by
  induction h with
  | clause hc => rw [hc.stated_eq_one, rules, List.length_singleton]
  | @reference t ht =>
    have hk := Token.kind_of_isLiteral (Token.isLiteral_of_isRuleSetName ht)
    rw [stated_of_not_isJoiner (by simp [Token.isJoiner_of_kind hk])]
    simp [rules, Token.surrounds_of_kind hk, statesRule, ht]
  | not ht _ ih =>
    rw [rules, ih, stated_cons (Token.surrounds_of_isOpening (Bool.or_eq_true_iff.2 (.inl ht)))]
  | group hl hr _ ih =>
    rw [rules, ih, stated_cons (Token.surrounds_of_isOpening (Bool.or_eq_true_iff.2 (.inr hl))),
      stated_concat (Bool.or_eq_true_iff.2 (.inr hr))]
  | single _ ih => exact ih
  | join _ ht _ ihl ihr =>
    rw [rules, List.length_append, ihl, ihr, stated_join (Token.isJoiner_of_joinSign ht)]

/-- Every rule is stated behind tokens that state as many rules as stand before it. -/
theorem Spells.exists_place {s : Schema} (h : Spells level ts e) {xs ys : List Rule} {r : Rule}
    (hr : e.rules s = xs ++ r :: ys) : ∃ us cs vs c, ts = us ++ (cs ++ vs) ∧
      stated us = xs.length ∧ Clause.Spells cs c ∧ c.toRule s = r := by
  induction h generalizing xs ys with
  | @clause ts c hc =>
    obtain ⟨rfl, hone⟩ : xs = [] ∧ [c.toRule s] = r :: ys := by
      rcases xs with _ | ⟨x, xs⟩
      · exact ⟨rfl, hr⟩
      · simp [rules] at hr
    exact ⟨[], ts, [], c, by simp, rfl, hc, (List.cons.inj hone).1⟩
  | reference => simp [rules] at hr
  | @not t ts e ht _ ih =>
    obtain ⟨us, cs, vs, c, rfl, hus, hc, heq⟩ := ih hr
    have hopening : t.isOpening = true := Bool.or_eq_true_iff.2 (.inl ht)
    exact ⟨t :: us, cs, vs, c, rfl,
      (stated_cons (Token.surrounds_of_isOpening hopening) us).trans hus, hc, heq⟩
  | @group l r' ts e hl _ _ ih =>
    obtain ⟨us, cs, vs, c, rfl, hus, hc, heq⟩ := ih hr
    have hopening : l.isOpening = true := Bool.or_eq_true_iff.2 (.inr hl)
    exact ⟨l :: us, cs, vs ++ [r'], c, by simp,
      (stated_cons (Token.surrounds_of_isOpening hopening) us).trans hus, hc, heq⟩
  | single _ ih => exact ih hr
  | @join _ t tl tr l r' hl ht _ ihl ihr =>
    rcases exists_of_append_cons hr.symm with ⟨es, rfl, hes⟩ | ⟨es, hes, _⟩
    · obtain ⟨us, cs, vs, c, rfl, hus, hc, heq⟩ := ihr hes
      refine ⟨tl ++ t :: us, cs, vs, c, by simp, ?_, hc, heq⟩
      rw [stated_join (Token.isJoiner_of_joinSign ht), hus, List.length_append, hl.length_rules]
    · obtain ⟨us, cs, vs, c, rfl, hus, hc, heq⟩ := ihl hes
      exact ⟨us, cs, vs ++ t :: tr, c, by simp, hus, hc, heq⟩

end Expr

end BoolQuery.Query
