import BoolQuery.Proofs.Validation

/-! Which trees are valid, said without the order in which a tree is checked. A tree is valid if
each ruleset in it is sound, those inside named rulesets included; and a ruleset is sound if its
name resolves, if it has children where it needs some, and if it allows each rule that stands
directly in it. -/

namespace BoolQuery

namespace Value

def TwoDigits (p : List Char) : Prop :=
  ∃ tens units : Char, p = [tens, units] ∧ tens.isDigit = true ∧ units.isDigit = true

/-- Two or three pairs of digits with colons between them. -/
def TimeText (s : String) : Prop :=
  ∃ parts : List (List Char), (parts.length = 2 ∨ parts.length = 3) ∧
    (∀ p ∈ parts, TwoDigits p) ∧ s.toList = [':'].intercalate parts

/-- The values of each type of field. -/
inductive OfType : FieldType → Value → Prop
  | string (s : String) : OfType .string (.string s)
  | textarea (s : String) : OfType .textarea (.string s)
  | number (x : Numeric.Double) (finite : x.isFinite = true) : OfType .number (.number x)
  | boolean (b : Bool) : OfType .boolean (.bool b)
  | date (d : Date) : OfType .date (.date d)
  | time (s : String) (text : TimeText s) : OfType .time (.string s)
  | multiselect (vs : List Value) : OfType .multiselect (.list vs)
  | category (v : Value) : OfType .category v
  | other (v : Value) : OfType .other v

theorem twoDigits_iff {p : List Char} :
    TwoDigits p ↔ p.length = 2 ∧ p.all Char.isDigit = true := by
  constructor
  · rintro ⟨tens, units, rfl, htens, hunits⟩
    simp [htens, hunits]
  · rintro ⟨hlen, hdigits⟩
    obtain ⟨tens, units, rfl⟩ := List.length_eq_two.1 hlen
    simp only [List.all_cons, List.all_nil, Bool.and_true, Bool.and_eq_true] at hdigits
    exact ⟨tens, units, rfl, hdigits.1, hdigits.2⟩

theorem TwoDigits.colon_notMem {p : List Char} (h : TwoDigits p) : ':' ∉ p := by
  obtain ⟨-, hdigits⟩ := twoDigits_iff.1 h
  intro hmem
  exact absurd (List.all_eq_true.1 hdigits ':' hmem) (by decide)

theorem isTime_iff {s : String} : isTime s = true ↔ TimeText s := by
  have hall (parts : List (List Char)) :
      (parts.all fun p => p.length == 2 && p.all Char.isDigit) = true ↔
        ∀ p ∈ parts, TwoDigits p := by
    simp only [List.all_eq_true (l := parts), Bool.and_eq_true, beq_iff_eq, twoDigits_iff]
  simp only [isTime, Bool.and_eq_true, Bool.or_eq_true, beq_iff_eq, hall]
  constructor
  · rintro ⟨hlen, hparts⟩
    exact ⟨s.toList.splitOn ':', hlen, hparts, (List.intercalate_splitOn ':').symm⟩
  · rintro ⟨parts, hlen, hparts, htext⟩
    have hne : parts ≠ [] := by rintro rfl; simp at hlen
    rw [htext, List.splitOn_intercalate ':' (fun p hp => (hparts p hp).colon_notMem) hne]
    exact ⟨hlen, hparts⟩

theorem hasType_iff {type : FieldType} {v : Value} : v.hasType type = true ↔ OfType type v := by
  constructor
  · intro h
    cases type with
    | number =>
      cases v with
      | number x => exact .number x h
      | _ => cases h
    | time =>
      cases v with
      | string s => exact .time s (isTime_iff.1 h)
      | _ => cases h
    | category => exact .category v
    | other => exact .other v
    | _ => cases v <;> first | constructor | cases h
  · intro h
    cases h with
    | number _ hfinite => exact hfinite
    | time _ htext => exact isTime_iff.2 htext
    | category v => cases v <;> rfl
    | other v => cases v <;> rfl
    | _ => rfl

theorem contains_iff {accepted : List Value} {v : Value} :
    accepted.contains v = true ↔ ∃ w ∈ accepted, (v == w) = true := by
  rw [List.contains_eq_any_beq, List.any_eq_true]

end Value

namespace Rule

/-- What a rule compares its field with, one by one: the values of its list under a list
operator, and its only value under any other. -/
def operands (r : Rule) : List Value :=
  if isListOperator r.operator then (r.value.bind Value.asList?).getD [] else r.value.toList

variable {r : Rule}

theorem all_within (hlist : isListOperator r.operator = true → ∃ vs, r.value = some (.list vs))
    (accepted : List Value) :
    r.value.all (Value.within accepted (isListOperator r.operator)) =
      r.operands.all accepted.contains := by
  unfold operands
  cases hop : isListOperator r.operator with
  | true =>
    obtain ⟨vs, hvs⟩ := hlist hop
    rw [hvs]
    rfl
  | false => cases r.value <;> simp [Value.within]

theorem all_fits (hlist : isListOperator r.operator = true → ∃ vs, r.value = some (.list vs))
    (type : FieldType) :
    r.value.all (Value.fits type (isListOperator r.operator)) =
      r.operands.all (Value.hasType type) := by
  unfold operands
  cases hop : isListOperator r.operator with
  | true =>
    obtain ⟨vs, hvs⟩ := hlist hop
    rw [hvs]
    rfl
  | false => cases r.value <;> simp [Value.fits]

end Rule

namespace Node

mutual

/-- The rulesets at all depths, each before those inside it; a named ruleset does not hide its
definition. -/
def rulesets : Node → List RuleSet
  | rule _ => []
  | group h kids => ⟨h, kids⟩ :: rulesetsOfAll kids

def rulesetsOfAll : List Node → List RuleSet
  | [] => []
  | n :: ns => n.rulesets ++ rulesetsOfAll ns

end

mutual

/-- The rules at all depths, from left to right, each in the ruleset where it stands. -/
def occurrences (enclosing : RuleSet) : Node → List Occurrence
  | rule r => [⟨r, enclosing⟩]
  | group h kids => occurrencesOfAll ⟨h, kids⟩ kids

def occurrencesOfAll (enclosing : RuleSet) : List Node → List Occurrence
  | [] => []
  | n :: ns => n.occurrences enclosing ++ occurrencesOfAll enclosing ns

end

end Node

/-- The rulesets of a tree, itself included. -/
def RuleSet.rulesets (t : RuleSet) : List RuleSet := t.toNode.rulesets

/-- The rules of a tree where they stand. -/
def RuleSet.occurrences (t : RuleSet) : List Occurrence := Node.occurrencesOfAll t t.children

/-- The operators in force for a field: those that override it, or its own. -/
def Schema.operatorsInForce (s : Schema) (name : String) (f : Field) : List String :=
  match s.override name f with
  | some ⟨.ok operators, _⟩ => operators
  | _ => f.operators.getD []

/-- The values that a rule may compare the field with where it stands; any, if there are none. -/
def Field.valuesFor (f : Field) (o : Occurrence) : List Value :=
  match f.source with
  | none => f.optionValues
  | some find =>
    match (find o).value with
    | .ok (some (v :: vs)) => v :: vs
    | _ => f.optionValues

namespace Schema

variable {s : Schema} {f : Field} {r : Rule} {enclosing t u : RuleSet} {name : String}

/-- The schema has a store, which has a ruleset of that name. -/
def Resolves (s : Schema) (name : String) : Prop :=
  ∃ find, s.store = some find ∧ ∃ definition, (find name).value = .ok (some definition)

/-- What is asked of a rule on the field `f`, in the ruleset where it stands. -/
structure Allows (s : Schema) (f : Field) (o : Occurrence) : Prop where
  operator : s.operatorsInForce o.rule.field f = [] ∨
    o.rule.operator ∈ s.operatorsInForce o.rule.field f
  presence : o.rule.value = none ↔ isNullTest o.rule.operator = true
  listed : isListOperator o.rule.operator = true →
    ∃ vs, o.rule.value = some (.list vs) ∧ vs ≠ []
  accepted : f.valuesFor o ≠ [] →
    ∀ v ∈ o.rule.operands, ∃ w ∈ f.valuesFor o, (v == w) = true
  validated : ∀ validate, f.validator = some validate → (validate o).value = .ok true
  entity : ∀ knows entity, s.knowsEntity = some knows → o.rule.entity = some entity →
    knows entity = true
  typed : s.strict = true → ∀ v ∈ o.rule.operands, v.OfType f.type

/-- A ruleset that is in order by itself, whatever the rulesets inside it are. -/
structure Sound (s : Schema) (u : RuleSet) : Prop where
  named : ∀ name, u.name = some name → s.Resolves name
  filled : u.name = none → u.children = [] → s.allowsEmpty = true
  allowed : ∀ r, .rule r ∈ u.children →
    ∃ f, s.field? r.field = some f ∧ s.Allows f ⟨r, u⟩

/-- Every ruleset in the tree is sound. -/
def Valid (s : Schema) (t : RuleSet) : Prop := ∀ u ∈ t.rulesets, s.Sound u

theorem value_operatorsFor : (s.operatorsFor name f).value = s.operatorsInForce name f := by
  unfold operatorsFor operatorsInForce
  cases s.override name f with
  | none => rfl
  | some answer =>
    obtain ⟨value, log⟩ := answer
    cases value <;> rfl

theorem value_acceptedFor {o : Occurrence} : (acceptedFor f o).value = f.valuesFor o := by
  unfold acceptedFor Field.valuesFor
  cases f.source with
  | none => rfl
  | some find =>
    simp only [Logged.value_bind]
    cases (find o).value with
    | error _ => rfl
    | ok found =>
      cases found with
      | none => rfl
      | some vs => cases vs <;> rfl

theorem checkOperator_iff : (s.checkOperator f r).value = none ↔
    s.operatorsInForce r.field f = [] ∨ r.operator ∈ s.operatorsInForce r.field f := by
  rw [checkOperator, Logged.value_bind, Check.value_require_eq_none, value_operatorsFor,
    Bool.or_eq_true, List.isEmpty_iff, List.contains_iff_mem]

theorem checkValidator_iff {o : Occurrence} : (checkValidator f o).value = none ↔
    ∀ validate, f.validator = some validate → (validate o).value = .ok true := by
  unfold checkValidator
  cases f.validator with
  | none => simp [Check.accept]
  | some validate =>
    simp only [Logged.value_bind, Option.some.injEq, forall_eq']
    cases (validate o).value with
    | error _ => simp [Check.reject]
    | ok b => cases b <;> simp [Check.accept, Check.reject]

theorem presence_iff : (checkPresence r).value = none ↔
    (r.value = none ↔ isNullTest r.operator = true) := by
  rw [checkPresence_iff]
  cases isNullTest r.operator <;> simp

theorem accepted_iff {o : Occurrence}
    (hlist : isListOperator o.rule.operator = true → ∃ vs, o.rule.value = some (.list vs)) :
    (checkAccepted f o).value = none ↔
      (f.valuesFor o ≠ [] → ∀ v ∈ o.rule.operands, ∃ w ∈ f.valuesFor o, (v == w) = true) := by
  rw [checkAccepted, Logged.value_bind, Check.value_require_eq_none, value_acceptedFor,
    Rule.all_within hlist, Bool.or_eq_true, List.isEmpty_iff, List.all_eq_true, or_iff_not_imp_left]
  simp only [Value.contains_iff, ne_eq]

theorem typed_iff (hlist : isListOperator r.operator = true → ∃ vs, r.value = some (.list vs)) :
    (s.checkType f r).value = none ↔ (s.strict = true → ∀ v ∈ r.operands, v.OfType f.type) := by
  rw [checkType, Check.value_require_eq_none, Rule.all_fits hlist, Bool.or_eq_true,
    List.all_eq_true]
  simp only [Value.hasType_iff]
  cases s.strict <;> simp

/-- A rule on a declared field passes exactly if it is allowed where it stands. -/
theorem checkRule_iff_allows :
    (s.checkRule ⟨r, enclosing⟩).value = none ↔
      ∃ f, s.field? r.field = some f ∧ s.Allows f ⟨r, enclosing⟩ := by
  cases hf : s.field? r.field with
  | none => simp [checkRule, hf, Check.reject]
  | some f =>
    simp only [checkRule, hf, Check.value_thenCheck_eq_none, checkOperator_iff, presence_iff,
      checkList_iff, checkValidator_iff, checkEntity_iff, Option.some.injEq, exists_eq_left']
    constructor
    · rintro ⟨hoperator, hpresence, hlisted, haccepted, hvalidated, hentity, htyped⟩
      have hlist h := (hlisted h).imp fun _ => And.left
      exact ⟨hoperator, hpresence, hlisted, (accepted_iff hlist).1 haccepted, hvalidated, hentity,
        (typed_iff hlist).1 htyped⟩
    · intro h
      have hlist h' := (h.listed h').imp fun _ => And.left
      exact ⟨h.operator, h.presence, h.listed, (accepted_iff hlist).2 h.accepted, h.validated,
        h.entity, (typed_iff hlist).2 h.typed⟩

theorem isSome_lookup_iff : (s.lookup name).value.isSome = true ↔ s.Resolves name := by
  unfold lookup Resolves
  cases s.store with
  | none => simp
  | some find =>
    simp only [Logged.value_bind, Option.some.injEq, exists_eq_left']
    cases (find name).value with
    | error _ => simp
    | ok found => cases found <;> simp

theorem checkHeader_iff_sound {h : Header} {kids : List Node} :
    (s.checkHeader h kids.isEmpty).value = none ↔
      (∀ name, h.name = some name → s.Resolves name) ∧
        (h.name = none → kids = [] → s.allowsEmpty = true) := by
  unfold checkHeader
  cases h.name with
  | none => cases kids <;> simp [Check.value_require_eq_none]
  | some name => simp [Check.value_require_eq_none, isSome_lookup_iff]

mutual

/-- What passes the check of a node: its rulesets are sound, or it is a rule that the ruleset
around it may hold. -/
theorem checkNode_iff_sound (enclosing : RuleSet) : (n : Node) →
    ((s.checkNode enclosing n).value = none ↔
      (∀ r, n = .rule r → ∃ f, s.field? r.field = some f ∧ s.Allows f ⟨r, enclosing⟩) ∧
        ∀ u ∈ n.rulesets, s.Sound u)
  | .rule r => by
    simp [checkNode, checkRule_iff_allows, Node.rulesets]
  | .group h kids => by
    rw [checkNode, Check.value_thenCheck_eq_none, checkHeader_iff_sound,
      checkNodes_iff_sound ⟨h, kids⟩ kids]
    simp only [Node.rulesets, List.mem_cons, forall_eq_or_imp]
    constructor
    · rintro ⟨⟨hnamed, hfilled⟩, hallowed, hinner⟩
      exact ⟨nofun, ⟨hnamed, hfilled, hallowed⟩, hinner⟩
    · rintro ⟨-, ⟨hnamed, hfilled, hallowed⟩, hinner⟩
      exact ⟨⟨hnamed, hfilled⟩, hallowed, hinner⟩

theorem checkNodes_iff_sound (enclosing : RuleSet) : (ns : List Node) →
    ((s.checkNodes enclosing ns).value = none ↔
      (∀ r, .rule r ∈ ns → ∃ f, s.field? r.field = some f ∧ s.Allows f ⟨r, enclosing⟩) ∧
        ∀ u ∈ Node.rulesetsOfAll ns, s.Sound u)
  | [] => by simp [checkNodes, Check.accept, Node.rulesetsOfAll]
  | n :: ns => by
    rw [checkNodes, Check.value_thenCheck_eq_none, checkNode_iff_sound enclosing n,
      checkNodes_iff_sound enclosing ns]
    simp only [Node.rulesetsOfAll, List.mem_append, List.mem_cons, or_imp, forall_and,
      eq_comm (a := n)]
    exact and_and_and_comm

end

theorem validateRuleSet_eq_true_iff : (s.validateRuleSet t).value = true ↔ s.Valid t := by
  have hnode : (s.checkRuleSet t).value = none ↔ _ := checkNode_iff_sound t t.toNode
  rw [validateRuleSet, Check.value_verdict, Option.isNone_iff_eq_none, hnode]
  exact and_iff_right fun r hr => by cases hr

/-- Fields have neither sources nor validators, so that no rule is judged by what stands around
it. -/
def AsksNoHooks (s : Schema) : Prop :=
  ∀ name f, s.field? name = some f → f.source = none ∧ f.validator = none

theorem Allows.anywhere (hsource : f.source = none) (hvalidator : f.validator = none)
    (h : s.Allows f ⟨r, t⟩) (u : RuleSet) : s.Allows f ⟨r, u⟩ := by
  have hvalues : f.valuesFor ⟨r, u⟩ = f.valuesFor ⟨r, t⟩ := by
    simp only [Field.valuesFor, hsource]
  exact ⟨h.operator, h.presence, h.listed, hvalues ▸ h.accepted, by simp [hvalidator], h.entity,
    h.typed⟩

end Schema

namespace Node

mutual

theorem map_rule_occurrences (enclosing : RuleSet) : (n : Node) →
    (n.occurrences enclosing).map (·.rule) = n.rules
  | .rule _ => rfl
  | .group h kids => map_rule_occurrencesOfAll ⟨h, kids⟩ kids

theorem map_rule_occurrencesOfAll (enclosing : RuleSet) : (ns : List Node) →
    (occurrencesOfAll enclosing ns).map (·.rule) = rulesOfAll ns
  | [] => rfl
  | n :: ns => by
    rw [occurrencesOfAll, List.map_append, map_rule_occurrences enclosing n,
      map_rule_occurrencesOfAll enclosing ns, rulesOfAll]

end

mutual

theorem mem_occurrences_iff {o : Occurrence} (enclosing : RuleSet) : (n : Node) →
    (o ∈ n.occurrences enclosing ↔ (n = .rule o.rule ∧ o.enclosing = enclosing) ∨
      (o.enclosing ∈ n.rulesets ∧ .rule o.rule ∈ o.enclosing.children))
  | .rule r => by
    obtain ⟨r', u⟩ := o
    simp [occurrences, rulesets, eq_comm]
  | .group h kids => by
    rw [occurrences, mem_occurrencesOfAll_iff ⟨h, kids⟩ kids, rulesets, List.mem_cons]
    simp only [reduceCtorEq, false_and, false_or]
    constructor
    · rintro (⟨hmem, heq⟩ | ⟨hu, hmem⟩)
      · exact ⟨.inl heq, by rwa [heq]⟩
      · exact ⟨.inr hu, hmem⟩
    · rintro ⟨heq | hu, hmem⟩
      · exact .inl ⟨by rwa [heq] at hmem, heq⟩
      · exact .inr ⟨hu, hmem⟩

/-- A rule below some nodes is one of them, or stands directly in a ruleset below them. -/
theorem mem_occurrencesOfAll_iff {o : Occurrence} (enclosing : RuleSet) : (ns : List Node) →
    (o ∈ occurrencesOfAll enclosing ns ↔ (.rule o.rule ∈ ns ∧ o.enclosing = enclosing) ∨
      (o.enclosing ∈ rulesetsOfAll ns ∧ .rule o.rule ∈ o.enclosing.children))
  | [] => by simp [occurrencesOfAll, rulesetsOfAll]
  | n :: ns => by
    rw [occurrencesOfAll, List.mem_append, mem_occurrences_iff enclosing n,
      mem_occurrencesOfAll_iff enclosing ns]
    simp only [rulesetsOfAll, List.mem_cons, List.mem_append, or_and_right, eq_comm (a := n)]
    exact or_or_or_comm

end

mutual

theorem mem_names_iff {name : String} : (n : Node) →
    (name ∈ n.names ↔ ∃ u ∈ n.rulesets, u.name = some name)
  | .rule _ => by simp [names, rulesets]
  | .group h kids => by
    rw [names, List.mem_append, mem_namesOfAll_iff kids]
    simp [rulesets]

theorem mem_namesOfAll_iff {name : String} : (ns : List Node) →
    (name ∈ namesOfAll ns ↔ ∃ u ∈ rulesetsOfAll ns, u.name = some name)
  | [] => by simp [namesOfAll, rulesetsOfAll]
  | n :: ns => by
    rw [namesOfAll, List.mem_append, mem_names_iff n, mem_namesOfAll_iff ns]
    simp only [rulesetsOfAll, List.mem_append, or_and_right, exists_or]

end

end Node

namespace RuleSet

variable {t : RuleSet}

/-- Some ruleset in the tree has neither a name nor children. -/
def HasHole (t : RuleSet) : Prop := ∃ u ∈ t.rulesets, u.name = none ∧ u.children = []

theorem map_rule_occurrences : t.occurrences.map (·.rule) = t.toNode.rules :=
  Node.map_rule_occurrencesOfAll t t.children

theorem mem_occurrences_iff {o : Occurrence} : o ∈ t.occurrences ↔
    o.enclosing ∈ t.rulesets ∧ .rule o.rule ∈ o.enclosing.children := by
  have hnode : o ∈ t.toNode.occurrences t ↔ _ := Node.mem_occurrences_iff t t.toNode
  exact hnode.trans (or_iff_right fun h => by cases h.1)

end RuleSet

namespace Schema

variable {s : Schema} {t : RuleSet}

/-- A tree is valid by its rules where they stand, its names and its empty rulesets. -/
theorem valid_iff : s.Valid t ↔
    (∀ o ∈ t.occurrences, ∃ f, s.field? o.rule.field = some f ∧ s.Allows f o) ∧
      (∀ name ∈ t.toNode.names, s.Resolves name) ∧ (t.HasHole → s.allowsEmpty = true) := by
  constructor
  · intro h
    refine ⟨fun o ho => ?_, fun name hname => ?_, ?_⟩
    · obtain ⟨hu, hr⟩ := RuleSet.mem_occurrences_iff.1 ho
      exact (h o.enclosing hu).allowed o.rule hr
    · obtain ⟨u, hu, hname⟩ := (Node.mem_names_iff _).1 hname
      exact (h u hu).named name hname
    · rintro ⟨u, hu, hname, hkids⟩
      exact (h u hu).filled hname hkids
  · rintro ⟨hrules, hnames, hholes⟩ u hu
    exact ⟨fun name hname => hnames name ((Node.mem_names_iff _).2 ⟨u, hu, hname⟩),
      fun hname hkids => hholes ⟨u, hu, hname, hkids⟩,
      fun r hr => hrules ⟨r, u⟩ (RuleSet.mem_occurrences_iff.2 ⟨hu, hr⟩)⟩

/-- A tree of one rule is valid if the rule is allowed. -/
theorem valid_ofRule_iff :
    s.Valid (.ofRule r) ↔ ∃ f, s.field? r.field = some f ∧ s.Allows f ⟨r, .ofRule r⟩ := by
  have hrulesets : (RuleSet.ofRule r).rulesets = [.ofRule r] := rfl
  have hchildren : (RuleSet.ofRule r).children = [.rule r] := rfl
  rw [Valid, hrulesets, List.forall_mem_singleton]
  constructor
  · intro h
    exact h.allowed r (hchildren ▸ List.mem_singleton_self _)
  · intro h
    refine ⟨nofun, fun _ hkids => ?_, fun r' hr' => ?_⟩
    · cases hchildren ▸ hkids
    · rw [hchildren, List.mem_singleton] at hr'
      cases hr'
      exact h

/-- Without hooks it does not matter where a rule stands. -/
theorem valid_iff_of_asksNoHooks (hs : s.AsksNoHooks) :
    s.Valid t ↔
      (∀ r ∈ t.toNode.rules, ∃ f, s.field? r.field = some f ∧ ∀ u, s.Allows f ⟨r, u⟩) ∧
        (∀ name ∈ t.toNode.names, s.Resolves name) ∧ (t.HasHole → s.allowsEmpty = true) := by
  rw [valid_iff, ← RuleSet.map_rule_occurrences, List.forall_mem_map]
  refine and_congr_left' (forall₂_congr fun o _ => exists_congr fun f => ?_)
  refine and_congr_right fun hf => ?_
  obtain ⟨hsource, hvalidator⟩ := hs _ f hf
  exact ⟨fun h => h.anywhere hsource hvalidator, fun h => h o.enclosing⟩

/-- The verdict on a tree is whether each of its rulesets is sound. Without hooks it is the same
for any other tree of the same rules and names that has an empty ruleset if this one has. -/
theorem validateRuleSet_iff_valid (s : Schema) (t : RuleSet) :
    ((s.validateRuleSet t).value = true ↔ s.Valid t) ∧
      (s.AsksNoHooks → ∀ u : RuleSet, (∀ r, r ∈ t.toNode.rules ↔ r ∈ u.toNode.rules) →
        (∀ name, name ∈ t.toNode.names ↔ name ∈ u.toNode.names) → (t.HasHole ↔ u.HasHole) →
        (s.validateRuleSet t).value = (s.validateRuleSet u).value) := by
  refine ⟨validateRuleSet_eq_true_iff, fun hs u hrules hnames hholes => ?_⟩
  rw [Bool.eq_iff_iff, validateRuleSet_eq_true_iff, validateRuleSet_eq_true_iff,
    valid_iff_of_asksNoHooks hs, valid_iff_of_asksNoHooks hs]
  simp only [hrules, hnames, hholes]

/-- The rules of `name=a & !(name=b | name=a)` in one ruleset. -/
theorem validateRuleSet_iff_valid_flattened :
    let s : Schema :=
      { field? := fun name => if name = "name" then some {} else none, strict := true }
    let a : Node := .rule { field := "name", operator := "=", value := some (.string "a") }
    let b : Node := .rule { field := "name", operator := "=", value := some (.string "b") }
    let t := RuleSet.ofChildren .and [a, .group { condition := .or, negated := true } [b, a]]
    let u := RuleSet.ofChildren .or [b, a]
    s.Valid t ∧ (s.validateRuleSet t).value = (s.validateRuleSet u).value := by
  intro s a b t u
  obtain ⟨hvalid, hsame⟩ := validateRuleSet_iff_valid s t
  refine ⟨hvalid.1 (by decide), hsame ?_ u ?_ ?_ ?_⟩
  · intro name f hf
    obtain ⟨-, hf⟩ := Option.ite_none_right_eq_some.1 hf
    obtain rfl := Option.some.inj hf
    exact ⟨rfl, rfl⟩
  · intro r
    simp [t, u, a, b, RuleSet.toNode, RuleSet.ofChildren, Node.rules, Node.rulesOfAll, or_comm]
  · intro name
    simp [t, u, a, b, RuleSet.toNode, RuleSet.ofChildren, Node.names, Node.namesOfAll]
  · simp [t, u, a, b, RuleSet.HasHole, RuleSet.rulesets, RuleSet.toNode, RuleSet.ofChildren,
      Node.rulesets, Node.rulesetsOfAll]

end Schema

end BoolQuery
