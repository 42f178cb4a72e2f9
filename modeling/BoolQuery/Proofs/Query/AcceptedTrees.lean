import BoolQuery.Proofs.Query.AcceptedQueries
import BoolQuery.Proofs.Validation

/-! Whether the text of an accepted tree is accepted. The schema judges the tree, and the text only
by what it is read as. The text of a rule says nothing of its entity, nor of the kind of a value
where the type of its field does not tell: there it is read as a string. Where every rule can be
said in a query, the text is accepted unless a `!` in it makes a keyword, or a field offers the
value of a rule, but not the string that it is read as. -/

namespace BoolQuery

/-- The leaf with another rule in the place of its own. -/
def Leaf.mapRule (f : Rule → Rule) : Leaf → Leaf
  | rule r => rule (f r)
  | name w => name w

namespace Node
open Query

variable {f : Rule → Rule}

theorem hasName_mapRules (n : Node) : (n.mapRules f).hasName = n.hasName := by
  cases n <;> rfl

theorem soleName?_mapRulesAll (kids : List Node) :
    soleName? (mapRulesAll f kids) = soleName? kids := by
  rcases kids with _ | ⟨n, _ | ⟨m, ns⟩⟩
  · rfl
  · cases n <;> rfl
  · cases n <;> rfl

mutual

theorem isAtomic_mapRules : (n : Node) → (n.mapRules f).isAtomic = n.isAtomic
  | rule _ => rfl
  | group h kids => by rw [mapRules, isAtomic, isAtomic, isAtomicAlone_mapRulesAll kids]

theorem isAtomicAlone_mapRulesAll : (ns : List Node) →
    isAtomicAlone (mapRulesAll f ns) = isAtomicAlone ns
  | [] => rfl
  | [only] => isAtomic_mapRules only
  | _ :: _ :: _ => rfl

end

theorem negatesBare_mapRulesAll (kids : List Node) :
    negatesBare (mapRulesAll f kids) = negatesBare kids := by
  rw [negatesBare_eq, negatesBare_eq, isAtomicAlone_mapRulesAll]

mutual

theorem queryText_mapRules (hf : ∀ r, (f r).queryText = r.queryText) (outer : Option Condition) :
    (n : Node) → (n.mapRules f).queryText outer = n.queryText outer
  | rule r => hf r
  | group h kids => by
    rw [mapRules, queryText, queryText, soleName?_mapRulesAll, negatesBare_mapRulesAll,
      aloneText?_mapRulesAll hf outer kids, queryTexts_mapRulesAll hf h.condition kids]

theorem aloneText?_mapRulesAll (hf : ∀ r, (f r).queryText = r.queryText)
    (outer : Option Condition) : (ns : List Node) →
    aloneText? outer (mapRulesAll f ns) = aloneText? outer ns
  | [] => rfl
  | [only] => by
    rw [mapRulesAll, mapRulesAll, aloneText?, aloneText?, hasName_mapRules,
      queryText_mapRules hf outer only]
  | _ :: _ :: _ => rfl

theorem queryTexts_mapRulesAll (hf : ∀ r, (f r).queryText = r.queryText) (c : Condition) :
    (ns : List Node) → queryTexts c (mapRulesAll f ns) = queryTexts c ns
  | [] => rfl
  | n :: ns => by
    rw [mapRulesAll, queryTexts, queryTexts, queryText_mapRules hf (some c) n,
      queryTexts_mapRulesAll hf c ns]

end

mutual

theorem nesting_mapRules (outer : Option Condition) :
    (n : Node) → (n.mapRules f).nesting outer = n.nesting outer
  | rule _ => rfl
  | group h kids => by
    rw [mapRules, nesting, nesting, soleName?_mapRulesAll, negatesBare_mapRulesAll,
      aloneNesting?_mapRulesAll outer kids, nestingOfAll_mapRulesAll h.condition kids]

theorem aloneNesting?_mapRulesAll (outer : Option Condition) : (ns : List Node) →
    aloneNesting? outer (mapRulesAll f ns) = aloneNesting? outer ns
  | [] => rfl
  | [only] => by
    rw [mapRulesAll, mapRulesAll, aloneNesting?, aloneNesting?, hasName_mapRules,
      nesting_mapRules outer only]
  | _ :: _ :: _ => rfl

theorem nestingOfAll_mapRulesAll (c : Condition) : (ns : List Node) →
    nestingOfAll c (mapRulesAll f ns) = nestingOfAll c ns
  | [] => rfl
  | n :: ns => by
    rw [mapRulesAll, nestingOfAll, nestingOfAll, nesting_mapRules (some c) n,
      nestingOfAll_mapRulesAll c ns]

end

mutual

theorem glues_mapRules (hf : ∀ r, (f r).queryText = r.queryText) :
    (n : Node) → (n.mapRules f).glues = n.glues
  | rule _ => rfl
  | group h kids => by
    rw [mapRules, glues, glues, soleName?_mapRulesAll, negatesBare_mapRulesAll,
      queryTexts_mapRulesAll hf h.condition kids, gluesAny_mapRulesAll hf kids]

theorem gluesAny_mapRulesAll (hf : ∀ r, (f r).queryText = r.queryText) :
    (ns : List Node) → gluesAny (mapRulesAll f ns) = gluesAny ns
  | [] => rfl
  | n :: ns => by
    rw [mapRulesAll, gluesAny, gluesAny, glues_mapRules hf n, gluesAny_mapRulesAll hf ns]

end

mutual

theorem leaves_mapRules : (n : Node) → (n.mapRules f).leaves = n.leaves.map (Leaf.mapRule f)
  | rule _ => rfl
  | group h kids => by
    rw [mapRules, leaves, leaves, leavesOfAll_mapRulesAll kids]
    cases h.name <;> rfl

theorem leavesOfAll_mapRulesAll : (ns : List Node) →
    leavesOfAll (mapRulesAll f ns) = (leavesOfAll ns).map (Leaf.mapRule f)
  | [] => rfl
  | n :: ns => by
    rw [mapRulesAll, leavesOfAll, leavesOfAll, leaves_mapRules n, leavesOfAll_mapRulesAll ns,
      List.map_append]

end

mutual

/-- The node is proper with its new rules, if it was with its old ones. -/
theorem proper_mapRules {P : Rule → Prop} : (n : Node) → n.Proper (fun _ => True) →
    (∀ r, .rule r ∈ n.leaves → P (f r)) → (n.mapRules f).Proper P
  | rule r => fun _ hrules => hrules r (List.mem_singleton_self _)
  | group h kids => by
    intro hn hrules
    unfold Proper at hn
    rw [mapRules]
    unfold Proper
    cases hname : h.name with
    | some name => simpa [hname] using hn
    | none =>
      simp only [hname] at hn
      rw [leaves_of_name_eq_none kids hname] at hrules
      refine ⟨?_, proper_mapRulesAll kids hn.2 hrules⟩
      cases kids with
      | nil => exact absurd rfl hn.1
      | cons _ _ => exact List.cons_ne_nil _ _

theorem proper_mapRulesAll {P : Rule → Prop} : (ns : List Node) → ProperAll (fun _ => True) ns →
    (∀ r, .rule r ∈ leavesOfAll ns → P (f r)) → ProperAll P (mapRulesAll f ns)
  | [] => fun _ _ => trivial
  | n :: ns => fun hns hrules =>
    ⟨proper_mapRules n hns.1 fun r hr => hrules r (List.mem_append_left _ hr),
      proper_mapRulesAll ns hns.2 fun r hr => hrules r (List.mem_append_right _ hr)⟩

end

end Node

/-- Types that do not tell what kind a single value is of. -/
def FieldType.isLoose : FieldType → Bool
  | category | multiselect | other => true
  | _ => false

namespace Value
open Query

/-- The value as the word that its text is, if it is one. -/
def asWord (v : Value) : Value :=
  if isBareWord (String.ofList v.queryText) then string (String.ofList v.queryText) else v

/-- What the text of a value says to a field of a type. -/
def asSaid (type : FieldType) (v : Value) : Value :=
  if type.isLoose then
    match v with
    | list vs => list (vs.map asWord)
    | v => v.asWord
  else v

theorem queryText_asWord (v : Value) : v.asWord.queryText = v.queryText := by
  unfold asWord
  split
  · rename_i hbare
    rw [queryText, stringText, if_pos hbare, String.toList_ofList]
  · rfl

theorem queryTexts_asWord (vs : List Value) : queryTexts (vs.map asWord) = queryTexts vs := by
  induction vs with
  | nil => rfl
  | cons v vs ih => rw [List.map_cons, queryTexts, queryTexts, queryText_asWord, ih]

theorem queryText_asSaid (type : FieldType) (v : Value) :
    (v.asSaid type).queryText = v.queryText := by
  unfold asSaid
  split
  · split
    · rw [queryText, queryText, queryTexts_asWord]
    · exact queryText_asWord _
  · rfl

theorem asWord_list (vs : List Value) : (list vs).asWord = list vs := by
  have hbare : isBareWord (String.ofList (list vs).queryText) = false := by
    simp [isBareWord, queryText, Text.everyChar]
  rw [asWord, hbare, if_neg Bool.false_ne_true]

variable {type : FieldType}

theorem hasType_asWord (hloose : type.isLoose = true) {v : Value} (h : v.hasType type = true) :
    v.asWord.hasType type = true := by
  cases type with
  | category | other => rfl
  | multiselect =>
    cases v with
    | list vs => rwa [asWord_list]
    | _ => cases h
  | _ => cases hloose

/-- What is said of a value has the type of the field, if the value has. -/
theorem fits_asSaid {listed : Bool} {v : Value} (h : v.fits type listed = true) :
    (v.asSaid type).fits type listed = true := by
  unfold asSaid
  split
  · rename_i hloose
    cases v with
    | list vs =>
      cases listed with
      | true =>
        refine List.all_eq_true.2 fun w hw => ?_
        obtain ⟨v, hv, rfl⟩ := List.mem_map.1 hw
        exact hasType_asWord hloose (List.all_eq_true.1 h v hv)
      | false =>
        cases type with
        | category | other | multiselect => rfl
        | _ => cases hloose
    | _ =>
      cases listed with
      | true => cases h
      | false => exact hasType_asWord hloose h
  · exact h

/-- A value of the type of its field is read back from its text, where a field without a type for
single values is compared with strings. -/
theorem suits_of_hasType {s : Schema} {field : String} {f : Field} {v : Value}
    (hf : s.field? field = some f) (htype : v.hasType f.type = true)
    (hloose : f.type.isLoose = true → ∃ w, v = .string w) : v.Suits s field := by
  cases v with
  | string w =>
    right
    simp only [Schema.valueOf, hf]
    cases ht : f.type <;> simp_all [hasType, ofWord]
  | number x => cases ht : f.type <;> simp_all [hasType, FieldType.isLoose, Suits]
  | bool b => cases ht : f.type <;> simp_all [hasType, FieldType.isLoose, Suits]
  | date d => cases ht : f.type <;> simp_all [hasType, FieldType.isLoose, Suits]
  | list vs => cases ht : f.type <;> simp_all [hasType, FieldType.isLoose]

end Value

namespace Rule
open Query

variable {s : Schema} {r : Rule} {f : Field}

/-- What the text of a rule says to a schema. -/
def asSaid (s : Schema) (r : Rule) : Rule :=
  match s.field? r.field with
  | some f => { r with value := r.value.map (·.asSaid f.type), entity := none }
  | none => { r with entity := none }

theorem asSaid_of_field (hf : s.field? r.field = some f) :
    r.asSaid s = { r with value := r.value.map (·.asSaid f.type), entity := none } := by
  rw [asSaid, hf]

@[simp] theorem field_asSaid (s : Schema) (r : Rule) : (r.asSaid s).field = r.field := by
  unfold asSaid
  split <;> rfl

@[simp] theorem entity_asSaid (s : Schema) (r : Rule) : (r.asSaid s).entity = none := by
  unfold asSaid
  split <;> rfl

theorem queryText_asSaid (s : Schema) (r : Rule) : (r.asSaid s).queryText = r.queryText := by
  unfold asSaid
  split
  · cases hv : r.value <;>
      simp [queryText, isDocumentSearch, comparisonText, hv, Value.queryText_asSaid]
  · rfl

/-- What has to be known of an accepted rule besides, if a query is to state it. Its field is a
word and its operator one of a query's, no string is a part of the operator, and a field without a
type for single values is compared with strings. -/
structure Sayable (s : Schema) (r : Rule) : Prop where
  field : r.isDocumentSearch = false → IsField r.field
  operator : isNullTest r.operator = false → IsOperator r.operator
  operand : ∀ w, r.value = some (.string w) → isBareWord w = true →
    Clause.completesKeyword r.operator ⟨.word, w⟩ = false
  listed : ∀ vs, r.value = some (.list vs) → isListOperator r.operator = true
  strings : ∀ f, s.field? r.field = some f → f.type.isLoose = true →
    ∀ v ∈ r.scalars, ∃ w, v = .string w

theorem completesKeyword_of_suits {field op : String} {v : Value} {t : Token}
    (h : v.Suits s field) (ht : v.token? = some t)
    (hkey : ∀ w, v = .string w → isBareWord w = true →
      Clause.completesKeyword op ⟨.word, w⟩ = false) : Clause.completesKeyword op t = false := by
  cases v with
  | string w =>
    cases ht
    split
    · rename_i hbare
      exact hkey w rfl hbare
    · simp [Clause.completesKeyword, Token.isWord]
  | _ => exact h.completesKeyword (fun w hw => by cases hw) ht

/-- A schema that admits a rule admits what its text says. -/
theorem admits_asSaid (hf : s.field? r.field = some f) (h : s.Admits f r) :
    s.Admits f (r.asSaid s) := by
  rw [asSaid_of_field hf]
  refine ⟨h.operator, fun hnull => ?_, fun hnull => ?_, fun hlist => ?_, ?_, ?_⟩
  · rw [h.unary hnull]
    rfl
  · exact fun hnone => h.binary hnull (Option.map_eq_none_iff.1 hnone)
  · obtain ⟨vs, hvs, hne⟩ := h.listed hlist
    rw [hvs]
    unfold Value.asSaid
    split
    · exact ⟨_, rfl, by simpa using hne⟩
    · exact ⟨vs, rfl, hne⟩
  · intro _ _ _ hentity
    cases hentity
  · intro hstrict v hv
    obtain ⟨w, hw, rfl⟩ := Option.map_eq_some_iff.1 hv
    exact Value.fits_asSaid (h.typed hstrict w hw)

theorem Sayable.legible_nullTest {field op : String} (hr : Sayable s { field, operator := op })
    (hnull : isNullTest op = true) : Legible s { field, operator := op } := by
  have hop : op = "is null" ∨ op = "is not null" := by simpa [isNullTest, nullTests] using hnull
  obtain rfl | rfl := hop
  · exact .nullTest false (hr.field (isDocumentSearch_nullTest field false))
  · exact .nullTest true (hr.field (isDocumentSearch_nullTest field true))

theorem Sayable.legible_among {field op : String} {vs : List Value}
    (hr : Sayable s { field, operator := op, value := some (.list vs) })
    (hf : s.field? field = some f) (hlist : isListOperator op = true) (hne : vs ≠ [])
    (htyped : (Value.list vs).fits f.type true = true) :
    Legible s { field, operator := op, value := some (.list vs) } := by
  have hall : ∀ v ∈ vs, v.hasType f.type = true := List.all_eq_true.1 htyped
  refine .among (hr.field (isDocumentSearch_of_isListOperator hlist)) hlist hne fun v hv => ?_
  exact (Value.suits_of_hasType hf (hall v hv) fun hloose => hr.strings f hf hloose v hv).fits

theorem Sayable.legible_scalar {field op : String} {v : Value}
    (hr : Sayable s { field, operator := op, value := some v }) (hf : s.field? field = some f)
    (hop : IsOperator op) (hlist : isListOperator op = false) (htyped : v.hasType f.type = true) :
    Legible s { field, operator := op, value := some v } := by
  have hmem : v ∈ scalars { field, operator := op, value := some v } := by
    cases v with
    | list vs => cases (hr.listed vs rfl).symm.trans hlist
    | _ => exact List.mem_singleton_self _
  have hsuits : v.Suits s field := Value.suits_of_hasType hf htyped fun hloose =>
    hr.strings f hf hloose v hmem
  cases hsearch : isDocumentSearch { field, operator := op } with
  | true =>
    obtain ⟨rfl, rfl⟩ := isDocumentSearch_eq hop hsearch
    exact .search hsuits.fits
  | false =>
    refine .compare (hr.field hsearch) hop hsearch hsuits.fits fun t ht => ?_
    exact completesKeyword_of_suits hsuits ht fun w hw => hr.operand w (congrArg some hw)

/-- A rule without an entity that a schema admits and a query can state is legible. -/
theorem Sayable.legible (hr : r.Sayable s) (hstrict : s.strict = true)
    (hf : s.field? r.field = some f) (had : s.Admits f r) (hentity : r.entity = none) :
    r.Legible s := by
  obtain ⟨field, op, value, entity⟩ := r
  obtain rfl : entity = none := hentity
  cases hnull : isNullTest op with
  | true =>
    obtain rfl : value = none := had.unary hnull
    exact hr.legible_nullTest hnull
  | false =>
    obtain ⟨v, rfl⟩ := Option.ne_none_iff_exists'.1 (had.binary hnull)
    have htyped : v.fits f.type (isListOperator op) = true := had.typed hstrict v rfl
    cases hlist : isListOperator op with
    | true =>
      obtain ⟨vs, hvs, hne⟩ := had.listed hlist
      obtain rfl := Option.some.inj hvs
      exact hr.legible_among hf hlist hne (hlist ▸ htyped)
    | false =>
      rw [hlist] at htyped
      exact hr.legible_scalar hf (hr.operator hnull) hlist htyped

end Rule

namespace RuleSet
open Query

/-- What the text of a tree says to a schema. -/
def asSaid (s : Schema) (t : RuleSet) : RuleSet :=
  { t with children := Node.mapRulesAll (Rule.asSaid s) t.children }

theorem toQuery_asSaid (s : Schema) (t : RuleSet) : (t.asSaid s).toQuery = t.toQuery :=
  congrArg String.ofList (Node.queryText_mapRules (Rule.queryText_asSaid s) none t.toNode)

theorem glues_asSaid (s : Schema) (t : RuleSet) : (t.asSaid s).toNode.glues = t.toNode.glues :=
  Node.glues_mapRules (Rule.queryText_asSaid s) t.toNode

theorem nesting_asSaid (s : Schema) (t : RuleSet) (outer : Option Condition) :
    (t.asSaid s).toNode.nesting outer = t.toNode.nesting outer :=
  Node.nesting_mapRules outer t.toNode

theorem leaves_asSaid (s : Schema) (t : RuleSet) :
    (t.asSaid s).leaves = t.leaves.map (Leaf.mapRule (Rule.asSaid s)) :=
  Node.leaves_mapRules t.toNode

end RuleSet

theorem Leaf.Same.symm {x y : Leaf} (h : Same x y) : Same y x := by
  cases h with
  | rule h => exact .rule (Rule.beq_symm h)
  | name n => exact .name n

namespace Query

variable {s : Schema} {t : RuleSet}

/-- A leaf that a schema accepts says something that it accepts, if it is offered. -/
theorem accepted_asSaid {l : Leaf} (h : l.Accepted s)
    (hoffered : ∀ r, l = .rule r → ∀ f, s.field? r.field = some f → f.Offers (r.asSaid s)) :
    (l.mapRule (Rule.asSaid s)).Accepted s := by
  cases l with
  | name _ => cases h
  | rule r =>
    obtain ⟨f, hf, had, _⟩ := h
    exact ⟨f, by rwa [Rule.field_asSaid], Rule.admits_asSaid hf had, hoffered r rfl f hf⟩

theorem accepted_of_same {l y : Leaf} (h : y.Accepted s) (hsame : Leaf.Same l y) :
    l.Accepted s := by
  cases hsame with
  | rule heq => exact Schema.Accepts.of_beq h heq
  | name => cases h

/-- If all that the text of accepted rules says can be said in a query, it is legible. -/
theorem legible_asSaid (hstrict : s.strict = true) (hproper : t.toNode.Proper fun _ => True)
    (haccepted : ∀ l ∈ t.leaves, l.Accepted s)
    (hrules : ∀ r, .rule r ∈ t.leaves → (r.asSaid s).Sayable s) :
    (t.asSaid s).toNode.Proper (Rule.Legible s) := by
  refine Node.proper_mapRules t.toNode hproper fun r hr => ?_
  obtain ⟨f, hf, had, _⟩ := haccepted _ hr
  exact (hrules r hr).legible hstrict (by rwa [Rule.field_asSaid]) (Rule.admits_asSaid hf had)
    (Rule.entity_asSaid s r)

/-- The text of an accepted tree is accepted, if all that it says of rules can be said in a query,
exactly if no `!` in it makes a keyword of what it negates and each field offers what is said, if
it offers anything. -/
theorem validateText_toQuery_iff (hs : s.JudgesAlone) (hempty : s.allowsEmpty = false)
    (hstrict : s.strict = true) (ht : (s.validateRuleSet t).value = true)
    (hd : t.toNode.nesting none ≤ maxDepth)
    (hrules : ∀ r, .rule r ∈ t.leaves → (r.asSaid s).Sayable s) :
    (s.validateText t.toQuery).value = true ↔ t.toNode.glues = false ∧
      ∀ r, .rule r ∈ t.leaves → ∀ f, s.field? r.field = some f → f.Offers (r.asSaid s) := by
  obtain ⟨hproper, haccepted⟩ := (Schema.validateRuleSet_iff hs hempty).1 ht
  have hlegible := legible_asSaid hstrict hproper haccepted hrules
  have hleaves := RuleSet.leaves_asSaid s t
  rw [← RuleSet.nesting_asSaid s] at hd
  rw [← RuleSet.toQuery_asSaid s, ← RuleSet.glues_asSaid s, validateText_iff]
  constructor
  · rintro ⟨p, hp, hc, hvalid⟩
    obtain ⟨hg, _, e, hmeans, htree⟩ := parse_toQuery_sound hlegible ⟨hp, hc⟩
    refine ⟨hg, fun r hr f hf => ?_⟩
    have hread := ((Schema.validateRuleSet_iff hs hempty).1 hvalid).2
    rw [htree, Expr.leaves_simplify_toTree] at hread
    have hmem : .rule (r.asSaid s) ∈ (t.asSaid s).leaves :=
      hleaves ▸ List.mem_map.2 ⟨_, hr, rfl⟩
    obtain ⟨l, hl, hsame⟩ := exists_of_forall₂ hmeans.leaves _ hmem
    obtain ⟨f', hf', _, hoffers⟩ := accepted_of_same (hread l hl) hsame.symm
    rw [Rule.field_asSaid, hf] at hf'
    exact Option.some.inj hf' ▸ hoffers
  · rintro ⟨hg, hoffered⟩
    obtain ⟨p, hp, hc⟩ := parse_toQuery_complete hlegible hg hd
    obtain ⟨_, _, e, hmeans, htree⟩ := parse_toQuery_sound hlegible ⟨hp, hc⟩
    have hsaid : ∀ l ∈ e.leaves s, l.Accepted s := by
      intro l hl
      obtain ⟨y, hy, hsame⟩ := exists_of_forall₂ hmeans.leaves.flip l hl
      rw [hleaves] at hy
      obtain ⟨x, hx, rfl⟩ := List.mem_map.1 hy
      exact accepted_of_same (accepted_asSaid (haccepted x hx) fun r hr => hoffered r (hr ▸ hx))
        hsame
    have hnames : ∀ name ∈ e.names, isRuleSetName name = true := fun name hname =>
      (hsaid _ (Expr.name_mem_leaves.2 hname)).elim
    refine ⟨p, hp, hc, (Schema.validateRuleSet_iff hs hempty).2 ?_⟩
    rw [htree, Expr.leaves_simplify_toTree]
    exact ⟨Expr.proper_simplify_toTree (fun _ _ => trivial) hnames, hsaid⟩

/-- The negated rule `like=x` is accepted, and its text `!like=x` is not. -/
theorem validateText_toQuery_iff_like :
    let s : Schema :=
      { field? := fun name => if name = "like" then some {} else none
        allowsEmpty := false
        strict := true }
    let r : Rule := { field := "like", operator := "=", value := some (.string "x") }
    let t : RuleSet := { negated := true, children := [.rule r] }
    s.JudgesAlone ∧ (s.validateRuleSet t).value = true ∧ t.toNode.nesting none ≤ maxDepth ∧
      (∀ r, .rule r ∈ t.leaves → (r.asSaid s).Sayable s) ∧
      (s.validateText t.toQuery).value = false := by
  intro s r t
  have hs : s.JudgesAlone := by
    refine ⟨rfl, fun name f hf => ?_⟩
    simp only [s] at hf
    split at hf
    · obtain rfl := Option.some.inj hf
      exact ⟨rfl, rfl⟩
    · cases hf
  have ht : (s.validateRuleSet t).value = true := by decide +kernel
  have hd : t.toNode.nesting none ≤ maxDepth := by decide +kernel
  have hsaid : r.asSaid s = r := rfl
  have hrules : ∀ r, .rule r ∈ t.leaves → (r.asSaid s).Sayable s := by
    intro r' hr'
    obtain rfl := Leaf.rule.inj (List.mem_singleton.1 hr')
    rw [hsaid]
    exact
      { field := fun _ =>
          { isWord := (IsBare.of_all (by decide) (by decide)).isWord
            not_name := by decide +kernel }
        operator := fun _ => .sign (by simp [r])
        operand := fun w _ _ => by simp [Clause.completesKeyword, r]
        listed := fun vs hvs => by cases hvs
        strings := fun f hf hloose => by
          obtain rfl := Option.some.inj hf
          cases hloose }
  refine ⟨hs, ht, hd, hrules, Bool.eq_false_iff.2 fun hvalid => ?_⟩
  obtain ⟨hglues, _⟩ := (validateText_toQuery_iff hs rfl rfl ht hd hrules).1 hvalid
  exact absurd hglues (by decide +kernel)

end Query

end BoolQuery
