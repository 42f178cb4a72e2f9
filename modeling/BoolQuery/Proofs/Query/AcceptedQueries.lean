import BoolQuery.Proofs.Query.Places
import BoolQuery.Proofs.Query.RoundTrip
import BoolQuery.Proofs.Query.Shape
import BoolQuery.Proofs.Query.StatedRules
import BoolQuery.Validation

/-! Queries that are accepted, written again and read again. The tree of such a query states
the same exactly if each of its rules is legible and no `!` in its text makes a keyword. -/

namespace BoolQuery

namespace Rule
open Query

variable {s : Schema} {r : Rule}

/-- The text of a rule that a query states is charted. -/
theorem Stated.charted (hr : r.Stated s) : Charted [r] r.queryText := by
  cases hr with
  | search t =>
    obtain ⟨u, hu⟩ := Value.exists_token?_valueOf s documentField t
    exact charted_documentSearch hu
  | nullTest field negated => exact charted_nullTest field negated
  | @compare op field t hop =>
    obtain ⟨u, hu⟩ := Value.exists_token?_valueOf s field t
    cases hsearch : isDocumentSearch { field, operator := op } with
    | true =>
      obtain ⟨rfl, rfl⟩ := isDocumentSearch_eq hop hsearch
      exact charted_documentSearch hu
    | false => exact charted_compare hop hsearch hu
  | @among op field ts hlist hne =>
    have hscalars : ∀ v ∈ ts.map (s.valueOf field), ∃ t, v.token? = some t ∧ True := by
      intro v hv
      obtain ⟨t, _, rfl⟩ := List.mem_map.1 hv
      obtain ⟨u, hu⟩ := Value.exists_token?_valueOf s field t
      exact ⟨u, hu, trivial⟩
    obtain ⟨us, hus, _⟩ := Value.exists_tokens? hscalars
    exact charted_among hlist (by simpa using hne) hus

end Rule

namespace Query

variable {s : Schema} {text : String}

/-- The rules of a query are such as clauses state. -/
theorem stated_of_mem_rules {e : Expr} {level : Level}
    (h : Expr.Spells level (tokenize text.toList) e) :
    ∀ r ∈ e.rules s, r.Stated s := by
  intro r hr
  obtain ⟨c, us, hc, hus, rfl⟩ := h.exists_clause hr
  exact Rule.stated_of_spells hc fun t ht => isFormed_of_mem_tokenize (hus.subset ht)

/-- A rule whose field a mark keeps from being split apart is not read back: the reading comes to
the field before it has read the rule, and no token spells the field. -/
theorem Exposes.not_forall₂ {cs after : List Char} {us os : List Token} {r : Rule}
    {ys zs : List Rule} (h : Exposes cs r.field us os after) (htame : ¬ IsTame r.field)
    (hsearch : r.isDocumentSearch = false) (hlength : ys.length ≤ stated us) {e : Expr}
    (hspells : Expr.Spells (.chain .or) (Query.tokenize cs) e) :
    ¬ List.Forall₂ (· == ·) (e.rules s) (ys ++ r :: zs) := by
  intro hsame
  have htok := h.tokenize [] .nil
  rw [List.append_nil, List.append_nil] at htok
  have hformed {t : Token} (ht : t ∈ Query.tokenize cs) : t.IsFormed := isFormed_of_mem_tokenize ht
  obtain ⟨xs, r', ws, hrules, hxs, heq⟩ := exists_of_forall₂_append_cons hsame
  obtain ⟨vs, ks, rest, c, hplace, hstated, hclause, rfl⟩ := hspells.exists_place hrules
  have hfield := (Rule.beq_iff.1 heq).1
  rw [← Rule.isDocumentSearch_of_beq heq] at hsearch
  rw [htok] at hplace
  rcases exists_of_last hplace h.last hclause.not_isJoiner with ⟨ms, rfl, htail⟩ | hbefore
  · -- Nothing is stated between the field and the clause that is read as the rule.
    obtain ⟨f, o, ks, rfl, hf, _, htext⟩ := Rule.exists_field_of_spells hclause hsearch
    have hlit := Token.isLiteral_of_startsClause hf
    rw [stated_append_of_last h.last] at hstated
    have hms : stated ms = 0 := by omega
    rcases exists_of_append_cons htail.symm with ⟨es, rfl, hes⟩ | ⟨es, rfl, _⟩
    · rw [stated_append_left fun o ho => Token.surrounds_of_isOpening (h.openings o ho)] at hms
      have hfirst : f ∈ Query.tokenize cs := by simp [htok, hes]
      have hmark : '"' ∈ r.field.toList := by
        by_contra hmark
        exact htame fun hmem => absurd hmem hmark
      have hk : f.kind ≠ .quoted :=
        kind_ne_quoted_of_follows hmark h.follows hes hms (htext.symm.trans hfield)
      have hword : f.kind = .word := by simpa [Token.isLiteral, hk] using hlit
      have hisword : IsWord f.text.toList := by
        simpa only [Token.IsFormed, hword] using hformed hfirst
      exact htame fun _ => hfield ▸ htext ▸ hisword
    · have hopening := h.openings f (by simp)
      rw [Token.isOpening_of_kind (Token.kind_of_isLiteral hlit)] at hopening
      cases hopening
  · -- The clause stands before the field, where quotations have their place.
    have hisfield := Rule.isField_of_spells hclause hsearch
      (fun t ht => hformed (htok ▸ List.mem_append_left _ (hbefore.subset ht)))
      (h.quoted.of_infix hbefore)
    exact htame fun _ => hfield ▸ hisfield.isWord

/-- The rules that the text of a charted tree is read as are legible, if they equal those of the
tree. -/
theorem legible_of_rules {t : RuleSet}
    (ht : t.toNode.Proper fun r => Charted [r] r.queryText) {e : Expr}
    (hspells : Expr.Spells (.chain .or) (tokenize t.toQuery.toList) e)
    (hrules : List.Forall₂ (· == ·) (e.rules s) (Leaf.rulesAmong t.leaves)) {r : Rule}
    (hr : r.Stated s) (hmem : .rule r ∈ t.leaves) : r.Legible s := by
  have hcharted : Charted (Leaf.rulesAmong t.leaves) t.toQuery.toList := by
    rw [toList_toQuery]
    exact Node.charted_queryText t.toNode ht none
  cases hcharted with
  | derails hderails =>
    have hmisread := hderails [] .nil
    rw [List.append_nil] at hmisread
    exact absurd hspells (Expr.not_spells_of_misread hmisread)
  | exposes hxs htame hsearch hlength hexposes =>
    rw [hxs] at hrules
    exact absurd hrules (hexposes.not_forall₂ htame hsearch hlength hspells)
  | lexes hlex hquoted _ =>
    rw [← hlex.tokenize] at hquoted
    obtain ⟨r', hr', heq⟩ := exists_of_forall₂ hrules r (Leaf.mem_rulesAmong.2 hmem)
    obtain ⟨c, us, hclause, hus, rfl⟩ := hspells.exists_clause hr'
    exact hr.legible hclause (fun u hu => isFormed_of_mem_tokenize (hus.subset hu))
      (hquoted.of_infix hus) heq

/-- A rule that is read back as an equal one from the text of a charted tree is legible. -/
theorem legible_of_roundTrips {t : RuleSet}
    (ht : t.toNode.Proper fun r => Charted [r] r.queryText) (h : RoundTrips s t) {r : Rule}
    (hr : r.Stated s) (hmem : .rule r ∈ t.leaves) : r.Legible s := by
  obtain ⟨p, hparse, hc, hleaves, _⟩ := h
  obtain ⟨e, hspells, _, rfl⟩ := parseTokens_iff.1 ⟨hparse, hc⟩
  rw [Expr.leaves_simplify_toTree] at hleaves
  refine legible_of_rules ht hspells ?_ hr hmem
  rw [← Expr.rulesAmong_leaves]
  exact Leaf.rulesAmong_of_same hleaves

/-- An accepted text is a query from its start to its end, and its tree is accepted. -/
theorem validateText_iff : (s.validateText text).value = true ↔
    ∃ p, (parse s text).value = .ok p ∧ p.isComplete = true ∧
      (s.validateRuleSet p.tree).value = true := by
  rw [Schema.validateText, Check.value_verdict, Schema.checkText, Logged.value_bind]
  cases hp : (parse s text).value with
  | error error =>
    constructor
    · intro h
      simp [Check.reject] at h
    · rintro ⟨_, h, _⟩
      cases h
  | ok p =>
    by_cases hc : p.isComplete = true
    · simp [hc, Schema.validateRuleSet]
    · simp [hc, Check.reject]

/-- The verdict on a whole query is that on its tree. -/
theorem value_validateText {p : Parsed} (h : (parse s text).value = .ok p)
    (hc : p.isComplete = true) :
    (s.validateText text).value = (s.validateRuleSet p.tree).value := by
  rw [Bool.eq_iff_iff, validateText_iff]
  constructor
  · rintro ⟨p', hp', _, hvalid⟩
    obtain rfl := Except.ok.inj (h.symm.trans hp')
    exact hvalid
  · exact fun hvalid => ⟨p, h, hc, hvalid⟩

/-- Without stored rulesets, the text of what was read nests no deeper than what was read. -/
theorem Expr.nesting_simplify_toTree_le_depth {ts : List Token} {e : Expr} (hs : s.store = none)
    (h : Expr.Spells (.chain .or) ts e) : (e.toTree s).simplify.toNode.nesting none ≤ e.depth :=
  nesting_simplify_toTree_le
    (fun name hn => ⟨h.isRuleSetName name hn, negated_resolve_of_store_eq_none hs name⟩) h

/-- The tree of an accepted query round-trips exactly if its rules are legible and no `!` in its
text makes a keyword of what it negates. -/
theorem roundTrips_iff_of_accepted (hs : s.store = none)
    (h : (s.validateText text).value = true) :
    ∃ p, (parse s text).value = .ok p ∧ p.isComplete = true ∧
      (RoundTrips s p.tree ↔
        (∀ r, .rule r ∈ p.tree.leaves → r.Legible s) ∧ p.tree.toNode.glues = false) := by
  obtain ⟨p, hparse, hc, _⟩ := validateText_iff.1 h
  obtain ⟨e, hspells, hd, rfl⟩ := parseTokens_iff.1 ⟨hparse, hc⟩
  have hleaves : ∀ r, .rule r ∈ (e.toTree s).simplify.leaves ↔ r ∈ e.rules s := by
    intro r
    rw [Expr.leaves_simplify_toTree, Expr.rule_mem_leaves]
  have hnames := hspells.isRuleSetName
  have hdeep : (e.toTree s).simplify.toNode.nesting none ≤ maxDepth :=
    Nat.le_trans (Expr.nesting_simplify_toTree_le_depth hs hspells) hd
  have hiff (hlegible : ∀ r ∈ e.rules s, r.Legible s) :
      RoundTrips s (e.toTree s).simplify ↔ (e.toTree s).simplify.toNode.glues = false := by
    have hproper := Expr.proper_simplify_toTree hlegible hnames
    rw [roundTrips_iff_of_legible hs hproper]
    exact and_iff_left hdeep
  refine ⟨_, hparse, hc, ?_, ?_⟩
  · intro hround
    have hstated := stated_of_mem_rules (s := s) hspells
    have hproper := Expr.proper_simplify_toTree (fun r hr => (hstated r hr).charted) hnames
    have hlegible : ∀ r ∈ e.rules s, r.Legible s := fun r hr =>
      legible_of_roundTrips hproper hround (hstated r hr) ((hleaves r).2 hr)
    exact ⟨fun r hr => hlegible r ((hleaves r).1 hr), (hiff hlegible).1 hround⟩
  · rintro ⟨hlegible, hglues⟩
    exact (hiff fun r hr => hlegible r ((hleaves r).2 hr)).2 hglues

/-- The text `42` in quotes is no number, and written without quotes it becomes one. -/
theorem roundTrips_iff_of_accepted_quoted_number :
    let s : Schema := { field? := fun _ => some { type := .number } }
    (s.validateText "age=\"42\"").value = true ∧
      ∃ p, (parse s "age=\"42\"").value = .ok p ∧ p.isComplete = true ∧
        ¬ RoundTrips s p.tree := by
  intro s
  have hage : IsWord "age".toList := (IsBare.of_all (by decide) (by decide)).isWord
  have htokens : tokenize "age=\"42\"".toList =
      [⟨.word, "age"⟩, ⟨.operator, "="⟩, ⟨.quoted, "42"⟩] := by
    have hsplit : "age=\"42\"".toList =
        "age".toList ++ (['='] ++ (Text.quote "42".toList ++ [])) := by decide
    have hends : EndsWord (['='] ++ (Text.quote "42".toList ++ [])) := .cons (by decide) _
    rw [hsplit, tokenize_word hage hends, tokenize_comparison (by decide) (by decide),
      tokenize_quote, tokenize_nil]
    decide
  have hname : (⟨.operator, "="⟩ : Token).operatorName = "=" := by decide +kernel
  have hspells : Expr.Spells (.chain .or) (tokenize "age=\"42\"".toList)
      (.clause (.compare "age" "=" ⟨.quoted, "42"⟩)) := by
    rw [htokens]
    refine Expr.Spells.ofOperand (.clause (.comparison (by decide +kernel) rfl ?_)) .or
    rw [hname]
    exact .operand rfl (.literal rfl)
  obtain ⟨hparse, hc⟩ := (parseTokens_iff (s := s)).2 ⟨_, hspells, by decide, rfl⟩
  have haccepted : (s.validateText "age=\"42\"").value = true :=
    validateText_iff.2 ⟨_, hparse, hc, by decide +kernel⟩
  obtain ⟨p, hparse', _, hiff⟩ := roundTrips_iff_of_accepted rfl haccepted
  obtain rfl := Except.ok.inj (hparse.symm.trans hparse')
  let r : Rule := { field := "age", operator := "=", value := some (.string "42") }
  have hleaves : (Expr.toTree s (.clause (.compare "age" "=" ⟨.quoted, "42"⟩))).simplify.leaves =
      [.rule r] := Expr.leaves_simplify_toTree s _
  refine ⟨haccepted, _, hparse, hc, ?_⟩
  intro hround
  obtain ⟨hlegible, _⟩ := hiff.1 hround
  have hr : r.Legible s := hlegible r (hleaves ▸ List.mem_singleton.2 rfl)
  have hbare : isBareWord "42" = true := by decide +kernel
  obtain ⟨t, ht, heq⟩ := hr.fits rfl rfl
  obtain rfl : t = ⟨.word, "42"⟩ := by simpa [Value.token?, hbare, eq_comm] using ht
  exact absurd heq (by decide +kernel)

end Query

end BoolQuery
