import BoolQuery.Proofs.Query.WellFormedTrees

/-! The operators that a field has by its type, and the values that go with them. A strict schema
passes every rule whose value is of the documented type, but for the rules that a multiselect field
is there for: it asks of each value in their lists that it be a list itself. -/

namespace BoolQuery

/-- What the values in a list are, where the field has that type. -/
def FieldType.inList : FieldType → FieldType
  | multiselect => string
  | type => type

theorem FieldType.inList_of_ne {type : FieldType} (h : type ≠ multiselect) : type.inList = type := by
  cases type with
  | multiselect => exact absurd rfl h
  | _ => rfl

/-- What a rule compares with, as documented for the type of its field: nothing in a null test, a
list of such values where the operator takes one, and such a value elsewhere. -/
inductive Value.Conforms (type : FieldType) (operator : String) : Option Value → Prop
  | absent (test : isNullTest operator = true) : Conforms type operator none
  | listed {vs : List Value} (takesList : isListOperator operator = true) (filled : vs ≠ [])
      (items : ∀ v ∈ vs, v.OfType type.inList) : Conforms type operator (some (.list vs))
  | single {v : Value} (noTest : isNullTest operator = false)
      (noList : isListOperator operator = false) (typed : v.OfType type) :
      Conforms type operator (some v)

/-- Neither options nor a source nor a validator narrow down the values of the field. -/
structure Field.Open (f : Field) : Prop where
  options : f.options = none
  source : f.source = none
  validator : f.validator = none

namespace Schema

/-- Values must have the type of their field, and every field has its default operators. -/
structure TakesDefaults (s : Schema) : Prop where
  strict : s.strict = true
  override : ∀ name f, s.override name f = some (.answer f.defaultOperators)

/-- The rule uses its field as the type of the field is meant to be used. -/
structure Suits (s : Schema) (f : Field) (r : Rule) : Prop where
  declared : s.field? r.field = some f
  unnarrowed : f.Open
  operator : r.operator ∈ f.defaultOperators
  value : Value.Conforms f.type r.operator r.value

/-- The rule picks values of a multiselect field. -/
def Picks (f : Field) (r : Rule) : Prop :=
  f.type = .multiselect ∧ isListOperator r.operator = true

/-- If the schema knows entities, it knows that of the rule. -/
def KnowsEntityOf (s : Schema) (r : Rule) : Prop :=
  ∀ knows entity, s.knowsEntity = some knows → r.entity = some entity → knows entity = true

variable {s : Schema} {f : Field} {r : Rule} {t u : RuleSet}

/-- The values of a rule that suits its field, one by one, are of the type of the field, unless they
are picked from many. -/
theorem operands_typed_iff (h : Value.Conforms f.type r.operator r.value) :
    (∀ v ∈ r.operands, v.OfType f.type) ↔ ¬Picks f r := by
  obtain ⟨field, operator, value, entity⟩ := r
  cases h with
  | absent test =>
    have hlist : isListOperator operator = false := by
      rw [← Bool.not_eq_true]
      intro hlist
      exact absurd test (by simp [Rule.isNullTest_of_isListOperator hlist])
    simp [Picks, Rule.operands, hlist]
  | single _ noList typed => simpa [Picks, Rule.operands, noList] using typed
  | @listed vs takesList filled items =>
    simp only [Picks, Rule.operands, takesList, if_true, Option.bind_some, Value.asList?,
      Option.getD_some, and_true]
    constructor
    · intro htyped hmany
      obtain ⟨v, hv⟩ := List.exists_mem_of_ne_nil vs filled
      -- the one value would be a string by its item type and a list by the type of the field
      have hlist := htyped v hv
      have hitem := items v hv
      rw [hmany] at hlist hitem
      cases hlist
      cases hitem
    · intro hone v hv
      rw [← FieldType.inList_of_ne hone]
      exact items v hv

theorem presence_of_conforms (h : Value.Conforms f.type r.operator r.value) :
    r.value = none ↔ isNullTest r.operator = true := by
  obtain ⟨field, operator, value, entity⟩ := r
  cases h with
  | absent test => simp [test]
  | listed takesList _ _ => simp [Rule.isNullTest_of_isListOperator takesList]
  | single noTest _ _ => simp [noTest]

theorem listed_of_conforms (h : Value.Conforms f.type r.operator r.value)
    (hlist : isListOperator r.operator = true) : ∃ vs, r.value = some (.list vs) ∧ vs ≠ [] := by
  obtain ⟨field, operator, value, entity⟩ := r
  cases h with
  | absent test => exact absurd test (by simp [Rule.isNullTest_of_isListOperator hlist])
  | listed _ filled _ => exact ⟨_, rfl, filled⟩
  | single _ noList _ => exact absurd hlist (by simp [noList])

/-- A rule that suits its field is allowed wherever it stands, if it picks nothing from many. -/
theorem allows_iff_of_suits (hs : s.TakesDefaults) (h : s.Suits f r) (u : RuleSet) :
    s.Allows f ⟨r, u⟩ ↔ ¬Picks f r ∧ s.KnowsEntityOf r := by
  have hforce : s.operatorsInForce r.field f = f.defaultOperators := by
    simp [operatorsInForce, hs.override, Hook.answer]
  have hvalues : f.valuesFor ⟨r, u⟩ = [] := by
    simp [Field.valuesFor, h.unnarrowed.source, FieldSpec.optionValues, h.unnarrowed.options]
  constructor
  · intro hallows
    exact ⟨(operands_typed_iff h.value).1 (hallows.typed hs.strict), hallows.entity⟩
  · rintro ⟨hpicks, hentity⟩
    exact
      { operator := .inr (hforce ▸ h.operator)
        presence := presence_of_conforms h.value
        listed := listed_of_conforms h.value
        accepted := fun hne => absurd hvalues hne
        validated := by simp [h.unnarrowed.validator]
        entity := hentity
        typed := fun _ => (operands_typed_iff h.value).2 hpicks }

/-- Under a strict schema with the default operators, a tree of rules that suit their fields is valid
exactly if none of its rules picks values of a multiselect field, as long as nothing but the rules
can be at fault. -/
theorem validateRuleSet_iff_of_suits (hs : s.TakesDefaults) (t : RuleSet)
    (hrules : ∀ r ∈ t.toNode.rules, ∃ f, s.Suits f r)
    (hnames : ∀ name ∈ t.toNode.names, s.Resolves name)
    (hholes : t.HasHole → s.allowsEmpty = true) :
    (s.validateRuleSet t).value = true ↔
      ∀ r ∈ t.toNode.rules, (∀ f, s.field? r.field = some f → ¬Picks f r) ∧ s.KnowsEntityOf r := by
  rw [validateRuleSet_eq_true_iff, valid_iff, and_iff_left ⟨hnames, hholes⟩]
  rw [← RuleSet.map_rule_occurrences] at hrules ⊢
  rw [List.forall_mem_map] at hrules ⊢
  refine forall₂_congr fun o ho => ?_
  obtain ⟨f, hf⟩ := hrules o ho
  simp only [hf.declared, Option.some.injEq, exists_eq_left', forall_eq']
  exact allows_iff_of_suits hs hf o.enclosing

/-- The same list of strings on a category field and on a multiselect field. -/
theorem validateRuleSet_iff_of_suits_list :
    let kind : Field := { type := .category }
    let tags : Field := { type := .multiselect }
    let s : Schema :=
      { field? := fun name =>
          if name = "kind" then some kind else if name = "tags" then some tags else none
        override := fun _ f => some (.answer f.defaultOperators)
        strict := true }
    let among (field : String) : Rule :=
      { field, operator := "in", value := some (.list [.string "a"]) }
    s.TakesDefaults ∧ s.Suits kind (among "kind") ∧ s.Suits tags (among "tags") ∧
      (s.validateRuleSet (.ofRule (among "kind"))).value = true ∧
        (s.validateRuleSet (.ofRule (among "tags"))).value ≠ true := by
  intro kind tags s among
  have hs : s.TakesDefaults := ⟨rfl, fun _ _ => rfl⟩
  have hkind : s.Suits kind (among "kind") :=
    ⟨rfl, ⟨rfl, rfl, rfl⟩, by decide, .listed (by decide) (by simp) (by simp [FieldType.inList,
      Value.OfType.category, kind])⟩
  have htags : s.Suits tags (among "tags") :=
    ⟨rfl, ⟨rfl, rfl, rfl⟩, by decide, .listed (by decide) (by simp) (by simp [FieldType.inList,
      Value.OfType.string, tags])⟩
  have hiff (field : String) (f : Field) (h : s.Suits f (among field)) :=
    validateRuleSet_iff_of_suits hs (.ofRule (among field))
      (by simpa [RuleSet.ofRule, RuleSet.ofChildren, RuleSet.toNode, Node.rules, Node.rulesOfAll]
        using ⟨f, h⟩)
      (by simp [RuleSet.ofRule, RuleSet.ofChildren, RuleSet.toNode, Node.names, Node.namesOfAll])
      fun _ => rfl
  refine ⟨hs, hkind, htags, (hiff "kind" kind hkind).2 ?_, fun h => ?_⟩
  · intro r hr
    obtain rfl : r = among "kind" := List.mem_singleton.1 hr
    refine ⟨fun f hf hpicks => ?_, fun _ _ hknows _ => by cases hknows⟩
    obtain rfl : kind = f := Option.some.inj hf
    exact absurd hpicks.1 (by decide)
  · obtain ⟨hpicks, -⟩ := (hiff "tags" tags htags).1 h (among "tags") (List.mem_singleton_self _)
    exact hpicks tags rfl ⟨rfl, by decide⟩

end Schema

end BoolQuery
