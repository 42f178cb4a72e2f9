import BoolQuery.Proofs.Query.AcceptedQueries
import BoolQuery.Proofs.Validity

/-! The verdict on a query that is written again. Parentheses that a text does not need are not
written, so a rule that is read back may stand in another ruleset than before, and the hooks of
its field are asked about that ruleset. They alone can change the verdict: where they answer as
before and the rules are read back, so are the references, and the verdict stays. -/

namespace BoolQuery

namespace Rule

variable {r r' : Rule}

theorem equalAll_operands (h : (r == r') = true) :
    Value.equalAll r.operands r'.operands = true := by
  obtain ⟨field, op, value, entity⟩ := r
  obtain ⟨field', op', value', entity'⟩ := r'
  obtain ⟨rfl, rfl, hvalue, rfl⟩ := beq_iff.1 h
  unfold operands
  cases value with
  | none =>
    cases value' with
    | none => cases isListOperator op <;> rfl
    | some _ => cases hvalue
  | some v =>
    cases value' with
    | none => cases hvalue
    | some w =>
      have hvw : Value.equal v w = true := hvalue
      cases isListOperator op with
      | false => simp [Value.equalAll, hvw]
      | true =>
        cases v with
        | list vs =>
          cases w with
          | list ws => exact hvw
          | _ => cases hvw
        | _ =>
          cases w with
          | list _ => cases hvw
          | _ => rfl

/-- Equal rules compare their field with values that pass the same demands, if these do not tell
equal values apart. -/
theorem forall_operands_of_beq {p : Value → Bool}
    (hp : ∀ v w, Value.equal v w = true → p v = p w) (h : (r == r') = true)
    (hall : ∀ v ∈ r.operands, p v = true) : ∀ v ∈ r'.operands, p v = true := by
  rw [← List.all_eq_true] at hall ⊢
  rwa [← Value.all_congr hp (equalAll_operands h)]

end Rule

namespace Field

/-- The hooks of a field come to the same for two rules, each where it stands: the source has the
same values accepted, and the validator passes both rules or none. -/
structure AnswersAlike (f : Field) (o o' : Occurrence) : Prop where
  source : f.valuesFor o = f.valuesFor o'
  validator : ∀ validate, f.validator = some validate →
    ((validate o).value = .ok true ↔ (validate o').value = .ok true)

theorem AnswersAlike.symm {f : Field} {o o' : Occurrence} (h : f.AnswersAlike o o') :
    f.AnswersAlike o' o :=
  ⟨h.source.symm, fun validate hvalidate => (h.validator validate hvalidate).symm⟩

end Field

namespace Schema

variable {s : Schema} {f : Field} {o o' : Occurrence} {t u : RuleSet}

/-- The hooks of the field that the first of two rules is on answer alike for both. -/
def AnswersAlike (s : Schema) (o o' : Occurrence) : Prop :=
  ∀ f, s.field? o.rule.field = some f → f.AnswersAlike o o'

/-- A rule that is allowed in its place is allowed in any other where the hooks answer alike. -/
theorem Allows.of_answersAlike (h : s.Allows f o) (hrule : (o.rule == o'.rule) = true)
    (halike : f.AnswersAlike o o') : s.Allows f o' := by
  obtain ⟨hfield, hop, hvalue, hentity⟩ := Rule.beq_iff.1 hrule
  constructor
  case operator => exact hfield ▸ hop ▸ h.operator
  case presence =>
    rw [← hop, ← h.presence]
    cases hv : o.rule.value <;> cases hv' : o'.rule.value <;> simp [hv, hv'] at hvalue ⊢
  case listed =>
    intro hlist
    obtain ⟨vs, hvs, hne⟩ := h.listed (hop ▸ hlist)
    cases hv' : o'.rule.value with
    | none => simp [hvs, hv'] at hvalue
    | some w =>
      rw [hvs, hv'] at hvalue
      obtain ⟨ws, rfl, hws⟩ := Value.exists_list_of_equal (Value.equal_symm _ _ hvalue)
      exact ⟨ws, rfl, Value.ne_nil_of_equalAll hws hne⟩
  case accepted =>
    rw [← halike.source]
    intro hne
    simp only [← Value.contains_iff]
    refine Rule.forall_operands_of_beq (fun v w hvw => Value.contains_congr hvw _) hrule ?_
    simpa only [Value.contains_iff] using h.accepted hne
  case validated =>
    intro validate hvalidate
    exact (halike.validator validate hvalidate).1 (h.validated validate hvalidate)
  case entity => exact hentity ▸ h.entity
  case typed =>
    intro hstrict
    simp only [← Value.hasType_iff]
    refine Rule.forall_operands_of_beq (fun v w hvw => Value.hasType_congr hvw _) hrule ?_
    simpa only [Value.hasType_iff] using h.typed hstrict

end Schema

namespace Node

mutual

theorem children_ne_nil_of_proper {P : Rule → Prop} : (n : Node) → n.Proper P → n.names = [] →
    ∀ u ∈ n.rulesets, u.children ≠ []
  | .rule _ => by simp [rulesets]
  | .group h kids => by
    intro hn hnames
    rw [names, List.append_eq_nil_iff, Option.toList_eq_nil_iff] at hnames
    obtain ⟨hname, hkids⟩ := hnames
    simp only [Proper, hname] at hn
    simp only [rulesets, List.mem_cons, forall_eq_or_imp]
    exact ⟨hn.1, children_ne_nil_of_properAll kids hn.2 hkids⟩

theorem children_ne_nil_of_properAll {P : Rule → Prop} : (ns : List Node) → ProperAll P ns →
    namesOfAll ns = [] → ∀ u ∈ rulesetsOfAll ns, u.children ≠ []
  | [] => by simp [rulesetsOfAll]
  | n :: ns => by
    intro hns hnames
    rw [namesOfAll, List.append_eq_nil_iff] at hnames
    simp only [rulesetsOfAll, List.mem_append, or_imp, forall_and]
    exact ⟨children_ne_nil_of_proper n hns.1 hnames.1,
      children_ne_nil_of_properAll ns hns.2 hnames.2⟩

end

end Node

namespace Schema

variable {s : Schema} {t u : RuleSet}

/-- Without stored rulesets a tree is valid if it allows its rules where they stand and refers to
no ruleset. -/
theorem valid_iff_of_proper (hs : s.store = none) {P : Rule → Prop} (ht : t.toNode.Proper P) :
    s.Valid t ↔ (∀ o ∈ t.occurrences, ∃ f, s.field? o.rule.field = some f ∧ s.Allows f o) ∧
      ∀ name, .name name ∉ t.leaves := by
  have hresolves (name : String) : ¬ s.Resolves name := by
    rintro ⟨find, hfind, _⟩
    rw [hs] at hfind
    cases hfind
  rw [valid_iff, RuleSet.leaves, ← Node.names_eq_nil_iff]
  refine and_congr_right fun _ => ⟨fun h => ?_, fun hnames => ⟨by simp [hnames], ?_⟩⟩
  · exact List.eq_nil_iff_forall_not_mem.2 fun name hname => hresolves name (h.1 name hname)
  · rintro ⟨u, hu, _, hkids⟩
    exact absurd hkids (Node.children_ne_nil_of_proper _ ht hnames u hu)

/-- Trees with equal leaves are both valid or both not, if the hooks answer alike for each rule in
the one and in the other. -/
theorem valid_iff_of_answersAlike (hs : s.store = none) {P : Rule → Prop} (ht : t.toNode.Proper P)
    (hu : u.toNode.Proper P) (hleaves : List.Forall₂ Leaf.Same t.leaves u.leaves)
    (hoccs : List.Forall₂ (fun o o' => (o.rule == o'.rule) = true ∧ s.AnswersAlike o o')
      t.occurrences u.occurrences) : s.Valid t ↔ s.Valid u := by
  rw [valid_iff_of_proper hs ht, valid_iff_of_proper hs hu]
  simp only [Leaf.name_mem_of_same hleaves]
  refine and_congr_left' ⟨fun h o' ho' => ?_, fun h o ho => ?_⟩
  · obtain ⟨o, ho, hrule, halike⟩ := exists_of_forall₂ hoccs o' ho'
    obtain ⟨f, hf, hallows⟩ := h o ho
    have hfield := (Rule.beq_iff.1 hrule).1
    exact ⟨f, hfield ▸ hf, hallows.of_answersAlike hrule (halike f hf)⟩
  · obtain ⟨o', ho', hrule, halike⟩ := exists_of_forall₂ hoccs.flip o ho
    obtain ⟨f, hf, hallows⟩ := h o' ho'
    have hfield := (Rule.beq_iff.1 hrule).1
    have hf : s.field? o.rule.field = some f := hfield ▸ hf
    exact ⟨f, hf, hallows.of_answersAlike (Rule.beq_symm hrule) (halike f hf).symm⟩

end Schema

namespace Query

variable {s : Schema} {text : String} {p q : Parsed}

/-- No ruleset in the tree of a query is empty. -/
theorem proper_of_parse (h : (parse s text).value = .ok p) (hc : p.isComplete = true) :
    p.tree.toNode.Proper fun _ => True := by
  obtain ⟨e, hspells, _, rfl⟩ := parseTokens_iff.1 ⟨h, hc⟩
  exact Expr.proper_simplify_toTree (fun _ _ => trivial) hspells.isRuleSetName

/-- A query is read back with its leaves if it is read back with its rules. -/
theorem leaves_of_rules (hs : s.store = none) (hp : (parse s text).value = .ok p)
    (hpc : p.isComplete = true) (hq : (parse s p.tree.toQuery).value = .ok q)
    (hqc : q.isComplete = true)
    (hrules : List.Forall₂ (· == ·) q.tree.toNode.rules p.tree.toNode.rules) :
    List.Forall₂ Leaf.Same q.tree.leaves p.tree.leaves := by
  obtain ⟨e, hspells, _, rfl⟩ := parseTokens_iff.1 ⟨hp, hpc⟩
  obtain ⟨e', hspells', _, rfl⟩ := parseTokens_iff.1 ⟨hq, hqc⟩
  have hnames := hspells.isRuleSetName
  have hstated := stated_of_mem_rules (s := s) hspells
  have hcharted := Expr.proper_simplify_toTree (fun r hr => (hstated r hr).charted) hnames
  rw [Expr.rules_simplify_toTree hs, Expr.rules_simplify_toTree hs, ← Expr.rulesAmong_leaves s e,
    ← Expr.leaves_simplify_toTree] at hrules
  -- Legible rules have a text that means the tree, references and all.
  have hlegible : ∀ r ∈ e.rules s, r.Legible s := by
    intro r hr
    have hmem : .rule r ∈ (e.toTree s).simplify.leaves := by
      rwa [Expr.leaves_simplify_toTree, Expr.rule_mem_leaves]
    exact legible_of_rules hcharted hspells' hrules (hstated r hr) hmem
  have hproper := Expr.proper_simplify_toTree hlegible hnames
  obtain ⟨_, _, _, hmeans, htree⟩ := parse_toQuery_sound hproper ⟨hq, hqc⟩
  rw [htree, Expr.leaves_simplify_toTree]
  exact hmeans.leaves

/-- The text of the tree of a query has the verdict of the query, if it is read back with the same
rules and the hooks answer alike for each rule where it was typed and where it is read back. -/
theorem validateText_toQuery_eq (hs : s.store = none) (hp : (parse s text).value = .ok p)
    (hpc : p.isComplete = true) (hq : (parse s p.tree.toQuery).value = .ok q)
    (hqc : q.isComplete = true)
    (hrules : List.Forall₂ (· == ·) q.tree.toNode.rules p.tree.toNode.rules)
    (halike : List.Forall₂ s.AnswersAlike q.tree.occurrences p.tree.occurrences) :
    (s.validateText p.tree.toQuery).value = (s.validateText text).value := by
  have hleaves := leaves_of_rules hs hp hpc hq hqc hrules
  rw [← RuleSet.map_rule_occurrences, ← RuleSet.map_rule_occurrences, List.forall₂_map_left_iff,
    List.forall₂_map_right_iff] at hrules
  rw [value_validateText hp hpc, value_validateText hq hqc, Bool.eq_iff_iff,
    Schema.validateRuleSet_eq_true_iff, Schema.validateRuleSet_eq_true_iff]
  have hoccs := hrules.mp (fun _ _ hrule halike => And.intro hrule halike) halike
  exact Schema.valid_iff_of_answersAlike hs (proper_of_parse hq hqc) (proper_of_parse hp hpc)
    hleaves hoccs

/-- A text whose tokens are read as an expression has the tree of that expression. -/
theorem parse_of_read (s : Schema) (text : String) (e : Expr)
    (h : (Expr.read (tokenize text.toList)).toOption.map (fun q => (q.value, q.rest)) =
      some (e, [])) :
    ∃ n, (parse s text).value = .ok ⟨(e.toTree s).simplify, n, n⟩ := by
  cases hread : Expr.read (tokenize text.toList) with
  | error f => simp [hread, Except.toOption] at h
  | ok q =>
    obtain ⟨rfl, hrest⟩ : q.value = e ∧ q.rest = [] := by simpa [hread, Except.toOption] using h
    obtain ⟨hspells, hdepth⟩ := Expr.read_iff.1 ⟨q, hread, rfl, hrest⟩
    exact ⟨_, (parseTokens_iff.2 ⟨q.value, hspells, hdepth, rfl⟩).1⟩

/-- The validator of `a` asks for a rule on `b` beside the rule. In `(a=x & b=y) & b=z` there is
one, and there still is when the parentheses, which the text does not need, are gone. -/
theorem validateText_toQuery_eq_parenthesized :
    let a : Field := { validator := some fun o => .answer (o.enclosing.hasRuleOn "b") }
    let s : Schema :=
      { field? := fun name => if name = "a" then some a else if name = "b" then some {} else none }
    ∃ p q, (parse s "(a=x & b=y) & b=z").value = .ok p ∧ p.isComplete = true ∧
      (parse s p.tree.toQuery).value = .ok q ∧ q.isComplete = true ∧
      List.Forall₂ (· == ·) q.tree.toNode.rules p.tree.toNode.rules ∧
      List.Forall₂ s.AnswersAlike q.tree.occurrences p.tree.occurrences ∧
      (s.validateText p.tree.toQuery).value = (s.validateText "(a=x & b=y) & b=z").value := by
  intro a s
  let x : Expr := .clause (.compare "a" "=" ⟨.word, "x"⟩)
  let y : Expr := .clause (.compare "b" "=" ⟨.word, "y"⟩)
  let z : Expr := .clause (.compare "b" "=" ⟨.word, "z"⟩)
  let e : Expr := .join .and (.group (.join .and x y)) z
  let e' : Expr := .join .and (.join .and x y) z
  obtain ⟨n, hp⟩ := parse_of_read s "(a=x & b=y) & b=z" e (by decide +kernel)
  obtain ⟨m, hq⟩ := parse_of_read s "a=x & b=y & b=z" e' (by decide +kernel)
  have htext : (e.toTree s).simplify.toQuery = "a=x & b=y & b=z" := by decide +kernel
  rw [← htext] at hq
  have hrules : List.Forall₂ (· == ·) (e'.toTree s).simplify.toNode.rules
      (e.toTree s).simplify.toNode.rules := .cons rfl (.cons rfl (.cons rfl .nil))
  have hb (o o' : Occurrence) (h : o.rule.field = "b") : s.AnswersAlike o o' := by
    intro f hf
    rw [h] at hf
    obtain rfl : {} = f := Option.some.inj hf
    exact ⟨rfl, fun _ hvalidate => by cases hvalidate⟩
  have halike : List.Forall₂ s.AnswersAlike (e'.toTree s).simplify.occurrences
      (e.toTree s).simplify.occurrences := by
    refine .cons (fun f hf => ?_) (.cons (hb _ _ rfl) (.cons (hb _ _ rfl) .nil))
    obtain rfl : a = f := Option.some.inj hf
    refine ⟨rfl, fun validate hvalidate => ?_⟩
    obtain rfl := Option.some.inj hvalidate
    exact Iff.rfl
  have hpc : n == n := beq_self_eq_true n
  have hqc : m == m := beq_self_eq_true m
  exact ⟨_, _, hp, hpc, hq, hqc, hrules, halike,
    validateText_toQuery_eq rfl hp hpc hq hqc hrules halike⟩

/-- The same validator refuses the first rule of `(a=x) & b=y`, which stands alone, and passes it
when the parentheses are gone. -/
theorem validateText_toQuery_ne_parenthesized :
    let a : Field := { validator := some fun o => .answer (o.enclosing.hasRuleOn "b") }
    let s : Schema :=
      { field? := fun name => if name = "a" then some a else if name = "b" then some {} else none }
    s.store = none ∧ ∃ p q, (parse s "(a=x) & b=y").value = .ok p ∧ p.isComplete = true ∧
      (parse s p.tree.toQuery).value = .ok q ∧ q.isComplete = true ∧
      List.Forall₂ (· == ·) q.tree.toNode.rules p.tree.toNode.rules ∧
      (s.validateText "(a=x) & b=y").value = false ∧
      (s.validateText p.tree.toQuery).value = true := by
  intro a s
  let x : Expr := .clause (.compare "a" "=" ⟨.word, "x"⟩)
  let y : Expr := .clause (.compare "b" "=" ⟨.word, "y"⟩)
  let e : Expr := .join .and (.group x) y
  obtain ⟨n, hp⟩ := parse_of_read s "(a=x) & b=y" e (by decide +kernel)
  obtain ⟨m, hq⟩ := parse_of_read s "a=x & b=y" (.join .and x y) (by decide +kernel)
  have htext : (e.toTree s).simplify.toQuery = "a=x & b=y" := by decide +kernel
  have hfalse : (s.validateText "(a=x) & b=y").value = false := by decide +kernel
  have htrue : (s.validateText "a=x & b=y").value = true := by decide +kernel
  rw [← htext] at hq htrue
  exact ⟨rfl, _, _, hp, beq_self_eq_true n, hq, beq_self_eq_true m, .cons rfl (.cons rfl .nil),
    hfalse, htrue⟩

end Query

end BoolQuery
