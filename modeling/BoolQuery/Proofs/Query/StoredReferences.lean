import BoolQuery.Proofs.Query.RoundTrip
import BoolQuery.Proofs.Query.Shape

/-! Queries of references alone, where rulesets are stored. The text of such a query's tree
states a named ruleset by its name and takes its mark for a negation in the query. That is
right unless the definition itself is a negation: then the name, which stands for the negated
definition, is negated once more. -/

namespace BoolQuery.Query

variable {s : Schema} {text : String} {p : Parsed}

/-- The text states names of stored rulesets, `&`, `|`, `!` and parentheses, and nothing
else. -/
def RefersOnly (text : String) : Prop :=
  ∀ t ∈ tokenize text.toList, t.kind = .symbol ∨ t.isRuleSetName = true

/-- The names as true as what is stored under them. -/
def expansion (s : Schema) (rule : Rule → Bool) : Assignment where
  rule
  name name := (Expr.resolve s name).expandedHolds rule

/-- The text of the tree is a whole query, and its tree has the same truth, where every named
ruleset stands for its definition. -/
def KeepsTruth (s : Schema) (t : RuleSet) : Prop :=
  ∃ q, (parse s t.toQuery).value = .ok q ∧ q.isComplete = true ∧
    ∀ rule, q.tree.expandedHolds rule = t.expandedHolds rule

namespace Expr

variable {level : Level} {ts : List Token} {e : Expr}

/-- Where no token begins a clause, no rule is stated. -/
theorem Spells.rules_eq_nil (h : Spells level ts e)
    (hts : ∀ t ∈ ts, t.startsClause = false) : e.rules s = [] := by
  induction h with
  | clause h =>
    obtain ⟨t, us, rfl, ht⟩ := h.exists_cons
    rw [hts t (by simp)] at ht
    cases ht
  | reference => rfl
  | not _ _ ih => exact ih fun t ht => hts t (by simp [ht])
  | group _ _ _ ih => exact ih fun t ht => hts t (by simp [ht])
  | single _ ih => exact ih hts
  | join _ _ _ ihl ihr =>
    rw [rules, ihl fun t ht => hts t (by simp [ht]), ihr fun t ht => hts t (by simp [ht])]
    rfl

end Expr

variable {e : Expr} {ts : List Token}

/-- A query without rules is as true under one truth of rules as under another. -/
theorem holds_of_rules_eq_nil (he : e.rules s = []) (rule rule' : Rule → Bool)
    (name : String → Bool) : e.holds s ⟨rule, name⟩ = e.holds s ⟨rule', name⟩ :=
  Expr.holds_congr (by simp [he]) fun _ _ => rfl

theorem expandedHolds_toTree (e : Expr) (rule : Rule → Bool) :
    (e.toTree s).simplify.expandedHolds rule = e.holds s (expansion s rule) := by
  rw [RuleSet.expandedHolds, RuleSet.valued_simplify, Expr.valued_toTree]
  rfl

theorem holds_simplify_toTree (e : Expr) (a : Assignment) : (e.toTree s).simplify.holds a =
    e.holds s ⟨a.rule, fun name => (Expr.resolve s name).negated ^^ a.name name⟩ := by
  rw [RuleSet.holds_simplify, Expr.holds_toTree_eq]

/-- What the tree's text is read as takes each name for its definition, and the mark of a named
ruleset for a negation in the query. -/
theorem expandedHolds_of_parse_toQuery {t : RuleSet} (ht : t = (e.toTree s).simplify)
    (hproper : t.toNode.Proper (Rule.Legible s)) (he : e.rules s = []) {q : Parsed}
    (h : (parse s t.toQuery).value = .ok q ∧ q.isComplete = true) (rule : Rule → Bool) :
    q.tree.expandedHolds rule = t.holds (expansion s rule) := by
  obtain ⟨_, _, e', hmeans, hq⟩ := parse_toQuery_sound hproper h
  have hleaves : t.leaves = e.leaves s := by rw [ht, Expr.leaves_simplify_toTree]
  have he' : e'.rules s = [] := by
    apply List.eq_nil_iff_forall_not_mem.2
    intro r hr
    have hflip : List.Forall₂ (flip Leaf.Same) t.leaves (e'.leaves s) :=
      List.Forall₂.flip hmeans.leaves
    obtain ⟨l, hl, hsame⟩ := exists_of_forall₂ hflip _ (Expr.rule_mem_leaves.2 hr)
    cases hsame with
    | rule =>
      rw [hleaves, Expr.rule_mem_leaves, he] at hl
      cases hl
  let a : Assignment := ⟨fun _ => true, (expansion s rule).name⟩
  have ha : a.Respects := fun _ _ _ => rfl
  calc q.tree.expandedHolds rule
      = e'.holds s (expansion s rule) := by rw [hq, expandedHolds_toTree]
    _ = e'.holds s a := holds_of_rules_eq_nil he' _ _ _
    _ = t.holds a := hmeans.holds a ha
    _ = t.holds (expansion s rule) := by
      rw [ht, holds_simplify_toTree, holds_simplify_toTree]
      exact holds_of_rules_eq_nil he _ _ _

/-- A query of references alone keeps its truth exactly if its text can be read and it does not
matter whether the mark of a named ruleset negates the name or belongs to the definition. -/
theorem keepsTruth_iff_of_spells (h : Expr.Spells (.chain .or) ts e) (he : e.rules s = [])
    {t : RuleSet} (ht : t = (e.toTree s).simplify) :
    KeepsTruth s t ↔ t.toNode.glues = false ∧ t.toNode.nesting none ≤ maxDepth ∧
      ∀ rule, t.holds (expansion s rule) = t.expandedHolds rule := by
  have hproper : t.toNode.Proper (Rule.Legible s) :=
    ht ▸ Expr.proper_simplify_toTree (by simp [he]) h.isRuleSetName
  constructor
  · rintro ⟨q, hq, hc, htruth⟩
    obtain ⟨hg, hd, _⟩ := parse_toQuery_sound hproper ⟨hq, hc⟩
    refine ⟨hg, hd, ?_⟩
    intro rule
    rw [← expandedHolds_of_parse_toQuery ht hproper he ⟨hq, hc⟩, htruth]
  · rintro ⟨hg, hd, htruth⟩
    obtain ⟨q, hq, hc⟩ := parse_toQuery_complete hproper hg hd
    refine ⟨q, hq, hc, ?_⟩
    intro rule
    rw [expandedHolds_of_parse_toQuery ht hproper he ⟨hq, hc⟩, htruth]

/-- Where no definition is a negation, the mark of a named ruleset is a negation in the query. -/
theorem holds_expansion_of_unnegated
    (hneg : ∀ name ∈ e.names, (Expr.resolve s name).negated = false) (rule : Rule → Bool) :
    (e.toTree s).simplify.holds (expansion s rule) =
      (e.toTree s).simplify.expandedHolds rule := by
  rw [RuleSet.holds_simplify, Expr.holds_toTree _ hneg, expandedHolds_toTree]

/-- A query of references alone, whatever is stored, keeps its truth exactly if no `!` in its
tree's text makes a keyword, the text does not nest too deep, and the marks of the named rulesets
may be taken for negations in the query. If no definition that it refers to is a negation, only
the keywords matter, and these are `!CONTAINS` and `!LIKE`. -/
theorem keepsTruth_iff (htext : RefersOnly text) (h : (parse s text).value = .ok p)
    (hc : p.isComplete = true) :
    (KeepsTruth s p.tree ↔ p.tree.toNode.glues = false ∧ p.tree.toNode.nesting none ≤ maxDepth ∧
      ∀ rule, p.tree.holds (expansion s rule) = p.tree.expandedHolds rule) ∧
    ((∀ name, .name name ∈ p.tree.leaves → (Expr.resolve s name).negated = false) →
      (KeepsTruth s p.tree ↔ p.tree.toNode.glues = false)) ∧
    (p.tree.toNode.glues = true → Node.NamesKeyword p.tree.leaves) := by
  obtain ⟨e, hspells, hd, rfl⟩ := parseTokens_iff.1 ⟨h, hc⟩
  have he : e.rules s = [] := by
    refine hspells.rules_eq_nil ?_
    intro t ht
    rcases htext t ht with hk | hname
    · simp [Token.startsClause, Token.isLiteral_of_symbol hk]
    · simp [Token.startsClause, hname]
  have hiff := keepsTruth_iff_of_spells hspells he (s := s) rfl
  refine ⟨hiff, ?_, ?_⟩
  · intro hneg
    have hnames : ∀ name ∈ e.names, (Expr.resolve s name).negated = false := by
      intro name hname
      refine hneg name ?_
      show Leaf.name name ∈ (e.toTree s).simplify.leaves
      rw [Expr.leaves_simplify_toTree]
      exact Expr.name_mem_leaves.2 hname
    have hdeep := Expr.nesting_simplify_toTree_le
      (fun name hname => ⟨hspells.isRuleSetName name hname, hnames name hname⟩) hspells
    exact ⟨fun hk => (hiff.1 hk).1, fun hg => hiff.2
      ⟨hg, Nat.le_trans hdeep hd, holds_expansion_of_unnegated hnames⟩⟩
  · intro hg
    exact Node.namesKeyword_of_glues _
      (Expr.proper_simplify_toTree (P := Rule.Writable s) (by simp [he]) hspells.isRuleSetName) hg

/-- The stored ruleset `ADULTS` is the negation of a rule. Its own name is read as that
negation, written as `!ADULTS`, and read back as the rule. -/
theorem keepsTruth_iff_negated_definition :
    let r : Rule := { field := "age", operator := "=", value := some (.string "child") }
    let s : Schema :=
      { field? := fun _ => none
        store := some fun _ => .answer (some { negated := true, children := [.rule r] }) }
    RefersOnly "ADULTS" ∧
      ∃ p, (parse s "ADULTS").value = .ok p ∧ p.isComplete = true ∧ ¬ KeepsTruth s p.tree := by
  intro r s
  have hname : isRuleSetName "ADULTS" = true := by decide +kernel
  have htokens : tokenize "ADULTS".toList = [⟨.word, "ADULTS"⟩] :=
    (Node.lexes_name hname).tokenize
  have htext : RefersOnly "ADULTS" := by
    intro t ht
    rw [htokens, List.mem_singleton] at ht
    rw [ht]
    exact .inr (by simp [Token.isRuleSetName, hname])
  have hspells : Expr.Spells (.chain .or) (tokenize "ADULTS".toList) (.reference "ADULTS") := by
    rw [htokens]
    exact (Node.spells_name hname).ofOperand .or
  obtain ⟨h, hc⟩ := parseTokens_iff.2 ⟨_, hspells, by decide, rfl⟩
  refine ⟨htext, _, h, hc, ?_⟩
  intro hkeeps
  obtain ⟨_, _, htruth⟩ := (keepsTruth_iff (s := s) htext h hc).1.1 hkeeps
  exact absurd (htruth fun _ => true) (by decide)

end BoolQuery.Query
