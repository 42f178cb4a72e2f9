import BoolQuery.Proofs.Query.Layout
import BoolQuery.Proofs.RuleSet.Meaning
import BoolQuery.Validation

/-! What a schema accepts that judges each rule by itself. A tree is accepted if no ruleset in it
is empty and each of its leaves is a rule that is accepted; and of two equal rules both are
accepted or none is. -/

namespace BoolQuery

namespace Numeric.Double

theorem isFinite_of_equal {x y : Double} (h : equal x y = true) : x.isFinite = y.isFinite := by
  simp only [equal, Bool.and_eq_true, beq_iff_eq] at h
  rw [isFinite, isFinite, h.1.2]

/-- Equal numbers equal the same numbers. -/
theorem equal_congr {x y : Double} (h : equal x y = true) (z : Double) :
    equal x z = equal y z := by
  simp only [equal, Bool.and_eq_true, Bool.or_eq_true, Bool.not_eq_true', beq_iff_eq] at h
  obtain ⟨⟨⟨hx, hy⟩, hmag⟩, hsign⟩ := h
  have hzero : x.isZero = y.isZero := by simp [isZero, hmag]
  rcases hsign with hneg | hxz
  · simp only [equal, hx, hy, hmag, hneg, hzero]
  · simp only [equal, hx, hy, hmag, hzero ▸ hxz, hxz, Bool.or_true]

theorem equal_symm {x y : Double} (h : equal x y = true) : equal y x = true := by
  simp only [equal, Bool.and_eq_true, Bool.or_eq_true, Bool.not_eq_true', beq_iff_eq] at h ⊢
  obtain ⟨⟨⟨hx, hy⟩, hmag⟩, hsign⟩ := h
  have hzero : x.isZero = y.isZero := by simp [isZero, hmag]
  exact ⟨⟨⟨hy, hx⟩, hmag.symm⟩, hsign.imp Eq.symm fun h => hzero ▸ h⟩

end Numeric.Double

namespace Value

mutual

theorem equal_symm (v w : Value) (h : equal v w = true) : equal w v = true := by
  cases v with
  | number x =>
    cases w with
    | number y => exact Numeric.Double.equal_symm h
    | _ => cases h
  | list vs =>
    cases w with
    | list ws => exact equalAll_symm vs ws h
    | _ => cases h
  | bool b =>
    cases w with
    | bool c => exact beq_iff_eq.2 (eq_of_beq h).symm
    | _ => cases h
  | string u =>
    cases w with
    | string w => exact beq_iff_eq.2 (eq_of_beq h).symm
    | _ => cases h
  | date d =>
    cases w with
    | date e => exact beq_iff_eq.2 (eq_of_beq h).symm
    | _ => cases h

theorem equalAll_symm (vs ws : List Value) (h : equalAll vs ws = true) :
    equalAll ws vs = true := by
  cases vs with
  | nil =>
    cases ws with
    | nil => rfl
    | cons _ _ => cases h
  | cons v vs =>
    cases ws with
    | nil => cases h
    | cons w ws =>
      obtain ⟨hv, hvs⟩ := Bool.and_eq_true_iff.1 h
      exact Bool.and_eq_true_iff.2 ⟨equal_symm v w hv, equalAll_symm vs ws hvs⟩

end

mutual

/-- Equal values equal the same values. -/
theorem equal_congr (v w : Value) (h : equal v w = true) (x : Value) : equal v x = equal w x := by
  cases v with
  | number a =>
    cases w with
    | number b =>
      cases x with
      | number c => exact Numeric.Double.equal_congr h c
      | _ => rfl
    | _ => cases h
  | list vs =>
    cases w with
    | list ws =>
      cases x with
      | list xs => exact equalAll_congr vs ws h xs
      | _ => rfl
    | _ => cases h
  | bool b =>
    cases w with
    | bool c => rw [eq_of_beq h]
    | _ => cases h
  | string u =>
    cases w with
    | string w => rw [eq_of_beq h]
    | _ => cases h
  | date d =>
    cases w with
    | date e => rw [eq_of_beq h]
    | _ => cases h

theorem equalAll_congr (vs ws : List Value) (h : equalAll vs ws = true) (xs : List Value) :
    equalAll vs xs = equalAll ws xs := by
  cases vs with
  | nil =>
    cases ws with
    | nil => rfl
    | cons _ _ => cases h
  | cons v vs =>
    cases ws with
    | nil => cases h
    | cons w ws =>
      obtain ⟨hv, hvs⟩ := Bool.and_eq_true_iff.1 h
      cases xs with
      | nil => rfl
      | cons x xs => rw [equalAll, equalAll, equal_congr v w hv, equalAll_congr vs ws hvs]

end

variable {v w : Value} {vs ws accepted : List Value} {type : FieldType}

theorem contains_congr (h : equal v w = true) (accepted : List Value) :
    accepted.contains v = accepted.contains w := by
  rw [List.contains_eq_any_beq, List.contains_eq_any_beq]
  exact congrArg accepted.any (funext fun x => equal_congr v w h x)

theorem exists_list_of_equal (h : equal w (list vs) = true) :
    ∃ ws, w = list ws ∧ equalAll ws vs = true := by
  cases w with
  | list ws => exact ⟨ws, rfl, h⟩
  | _ => cases h

theorem ne_nil_of_equalAll (h : equalAll ws vs = true) (hne : vs ≠ []) : ws ≠ [] := by
  rintro rfl
  cases vs with
  | nil => exact hne rfl
  | cons _ _ => cases h

/-- A demand on single values that does not tell equal ones apart does not tell equal lists
apart. -/
theorem all_congr {p : Value → Bool} (hp : ∀ v w, equal v w = true → p v = p w)
    (h : equalAll vs ws = true) : vs.all p = ws.all p := by
  induction vs generalizing ws with
  | nil =>
    cases ws with
    | nil => rfl
    | cons _ _ => cases h
  | cons v vs ih =>
    cases ws with
    | nil => cases h
    | cons w ws =>
      obtain ⟨hv, hvs⟩ := Bool.and_eq_true_iff.1 h
      rw [List.all_cons, List.all_cons, hp v w hv, ih hvs]

theorem within_congr (h : equal v w = true) (accepted : List Value) (listed : Bool) :
    v.within accepted listed = w.within accepted listed := by
  have hcontains := contains_congr h accepted
  cases listed with
  | false => simpa only [within] using hcontains
  | true =>
    cases v with
    | list vs =>
      cases w with
      | list ws => exact all_congr (fun v w h => contains_congr h accepted) h
      | _ => cases h
    | _ =>
      cases w with
      | list _ => cases h
      | _ => rfl

theorem hasType_congr (h : equal v w = true) (type : FieldType) :
    v.hasType type = w.hasType type := by
  cases v with
  | number x =>
    cases w with
    | number y =>
      have hfin := Numeric.Double.isFinite_of_equal h
      cases type with
      | number => exact hfin
      | _ => rfl
    | _ => cases h
  | string u =>
    cases w with
    | string w => rw [eq_of_beq h]
    | _ => cases h
  | bool b =>
    cases w with
    | bool c => rw [eq_of_beq h]
    | _ => cases h
  | date d =>
    cases w with
    | date e => rw [eq_of_beq h]
    | _ => cases h
  | list vs =>
    cases w with
    | list ws => cases type <;> rfl
    | _ => cases h

theorem fits_congr (h : equal v w = true) (type : FieldType) (listed : Bool) :
    v.fits type listed = w.fits type listed := by
  cases listed with
  | false => exact hasType_congr h type
  | true =>
    cases v with
    | list vs =>
      cases w with
      | list ws => exact all_congr (fun v w h => hasType_congr h type) h
      | _ => cases h
    | _ =>
      cases w with
      | list _ => cases h
      | _ => rfl

end Value

namespace Check

theorem value_thenCheck_eq_none {first : Check} {second : Unit → Check} :
    (first.thenCheck second).value = none ↔ first.value = none ∧ (second ()).value = none := by
  unfold thenCheck
  cases h : first.value <;> simp [h, reject]

theorem value_require_eq_none {ok : Bool} {reason : Rejection} :
    (require ok reason).value = none ↔ ok = true := by
  cases ok <;> simp [require, accept, reject]

end Check

theorem Rule.beq_symm {r r' : Rule} (h : (r == r') = true) : (r' == r) = true := by
  obtain ⟨field, op, value, entity⟩ := r
  obtain ⟨field', op', value', entity'⟩ := r'
  obtain ⟨rfl, rfl, hvalue, rfl⟩ := beq_iff.1 h
  refine beq_iff.2 ⟨rfl, rfl, ?_, rfl⟩
  cases value with
  | none =>
    cases value' with
    | none => rfl
    | some _ => cases hvalue
  | some v =>
    cases value' with
    | none => cases hvalue
    | some w => exact Value.equal_symm v w hvalue

/-- The field offers what a rule compares with, unless it offers nothing at all. -/
def Field.Offers (f : Field) (r : Rule) : Prop :=
  f.optionValues.isEmpty = false → ∀ v, r.value = some v →
    v.within f.optionValues (isListOperator r.operator) = true

namespace Schema
open Node

/-- Every rule is judged by itself: neither stored rulesets nor hooks of fields are asked. -/
structure JudgesAlone (s : Schema) : Prop where
  no_store : s.store = none
  no_hooks : ∀ name f, s.field? name = some f → f.source = none ∧ f.validator = none

/-- What a schema demands of a rule on the field `f`, besides a value that the field offers. -/
structure Admits (s : Schema) (f : Field) (r : Rule) : Prop where
  operator : ((s.operatorsFor r.field f).value.isEmpty ||
    (s.operatorsFor r.field f).value.contains r.operator) = true
  unary : isNullTest r.operator = true → r.value = none
  binary : isNullTest r.operator = false → r.value ≠ none
  listed : isListOperator r.operator = true → ∃ vs, r.value = some (.list vs) ∧ vs ≠ []
  entity : ∀ knows entity, s.knowsEntity = some knows → r.entity = some entity →
    knows entity = true
  typed : s.strict = true → ∀ v, r.value = some v →
    v.fits f.type (isListOperator r.operator) = true

/-- Whether the schema accepts a rule by itself: its field is known, admits it and offers its
value. -/
def Accepts (s : Schema) (r : Rule) : Prop :=
  ∃ f, s.field? r.field = some f ∧ s.Admits f r ∧ f.Offers r

variable {s : Schema} {f : Field} {r r' : Rule} {enclosing : RuleSet}

theorem checkPresence_iff : (checkPresence r).value = none ↔
    (isNullTest r.operator = true → r.value = none) ∧
      (isNullTest r.operator = false → r.value ≠ none) := by
  unfold checkPresence
  cases isNullTest r.operator <;> simp [Check.value_require_eq_none, Option.isSome_iff_ne_none]

theorem checkList_iff : (checkList r).value = none ↔
    (isListOperator r.operator = true → ∃ vs, r.value = some (.list vs) ∧ vs ≠ []) := by
  rw [checkList, Check.value_require_eq_none]
  cases isListOperator r.operator with
  | false => simp
  | true =>
    cases hv : r.value with
    | none => simp
    | some v => cases v <;> simp [Value.asList?]

theorem checkAccepted_iff (hsource : f.source = none) :
    (checkAccepted f ⟨r, enclosing⟩).value = none ↔ f.Offers r := by
  have hfor : (acceptedFor f ⟨r, enclosing⟩).value = f.optionValues := by
    simp [acceptedFor, hsource]
  rw [checkAccepted, Logged.value_bind, hfor, Check.value_require_eq_none, Field.Offers]
  cases f.optionValues.isEmpty <;> cases r.value <;> simp

theorem checkEntity_iff : (s.checkEntity r).value = none ↔
    ∀ knows entity, s.knowsEntity = some knows → r.entity = some entity → knows entity = true := by
  unfold checkEntity
  cases s.knowsEntity <;> cases r.entity <;> simp [Check.value_require_eq_none, Check.accept]

theorem checkType_iff : (s.checkType f r).value = none ↔
    (s.strict = true → ∀ v, r.value = some v →
      v.fits f.type (isListOperator r.operator) = true) := by
  rw [checkType, Check.value_require_eq_none]
  cases s.strict <;> cases r.value <;> simp

/-- A rule passes the check wherever it stands, if the schema accepts it. -/
theorem checkRule_iff (hs : s.JudgesAlone) :
    (s.checkRule ⟨r, enclosing⟩).value = none ↔ s.Accepts r := by
  unfold Accepts
  cases hf : s.field? r.field with
  | none => simp [checkRule, hf, Check.reject]
  | some f =>
    obtain ⟨hsource, hvalidator⟩ := hs.no_hooks _ f hf
    have hoperator : (s.checkOperator f r).value = none ↔
        ((s.operatorsFor r.field f).value.isEmpty ||
          (s.operatorsFor r.field f).value.contains r.operator) = true := by
      rw [checkOperator, Logged.value_bind, Check.value_require_eq_none]
    have hvalid : (checkValidator f ⟨r, enclosing⟩).value = none := by
      simp [checkValidator, hvalidator, Check.accept]
    simp only [checkRule, hf, Check.value_thenCheck_eq_none, hoperator, checkPresence_iff,
      checkList_iff, checkAccepted_iff hsource, hvalid, checkEntity_iff, checkType_iff, true_and]
    constructor
    · rintro ⟨hop, ⟨hunary, hbinary⟩, hlist, hoffered, hentity, htype⟩
      exact ⟨f, rfl, ⟨hop, hunary, hbinary, hlist, hentity, htype⟩, hoffered⟩
    · rintro ⟨_, heq, ⟨hop, hunary, hbinary, hlist, hentity, htype⟩, hoffered⟩
      obtain rfl := Option.some.inj heq
      exact ⟨hop, ⟨hunary, hbinary⟩, hlist, hoffered, hentity, htype⟩

/-- Of two equal rules both are accepted or none is. -/
theorem Accepts.of_beq (h : s.Accepts r) (heq : (r' == r) = true) : s.Accepts r' := by
  obtain ⟨f, hf, hr, hoffered⟩ := h
  obtain ⟨field, op, value, entity⟩ := r
  obtain ⟨field', op', value', entity'⟩ := r'
  obtain ⟨rfl, rfl, hvalue, rfl⟩ := Rule.beq_iff.1 heq
  refine ⟨f, hf, ?_⟩
  cases value with
  | none =>
    cases value' with
    | none => exact ⟨hr, hoffered⟩
    | some _ => cases hvalue
  | some v =>
    cases value' with
    | none => cases hvalue
    | some w =>
      have hwv : Value.equal w v = true := hvalue
      refine ⟨⟨hr.operator, fun hnull => ?_, fun _ => by simp, fun hlist => ?_, hr.entity,
        fun hstrict _ hv => ?_⟩, fun hany _ hv => ?_⟩
      · cases hr.unary hnull
      · obtain ⟨vs, hvs, hne⟩ := hr.listed hlist
        obtain rfl := Option.some.inj hvs
        obtain ⟨ws, rfl, hws⟩ := Value.exists_list_of_equal hwv
        exact ⟨ws, rfl, Value.ne_nil_of_equalAll hws hne⟩
      · obtain rfl := Option.some.inj hv
        rw [Value.fits_congr hwv]
        exact hr.typed hstrict v rfl
      · obtain rfl := Option.some.inj hv
        rw [Value.within_congr hwv]
        exact hoffered hany v rfl

end Schema

namespace Leaf

/-- The leaf is a rule that the schema accepts. -/
def Accepted (s : Schema) : Leaf → Prop
  | rule r => s.Accepts r
  | name _ => False

end Leaf

namespace Schema
open Node

variable {s : Schema}

theorem checkHeader_iff (hs : s.JudgesAlone) (hempty : s.allowsEmpty = false) {h : Header}
    {childless : Bool} : (s.checkHeader h childless).value = none ↔
      h.name = none ∧ childless = false := by
  unfold checkHeader
  cases h.name with
  | none => simp [Check.value_require_eq_none, hempty]
  | some name => simp [lookup, hs.no_store, Check.value_require_eq_none]

mutual

/-- A node passes the check exactly if no ruleset in it is empty and each leaf is a rule that is
accepted. -/
theorem checkNode_iff (hs : s.JudgesAlone) (hempty : s.allowsEmpty = false) (enclosing : RuleSet) :
    (n : Node) → ((s.checkNode enclosing n).value = none ↔
      n.Proper (fun _ => True) ∧ ∀ l ∈ n.leaves, l.Accepted s)
  | .rule r => by
    rw [checkNode, checkRule_iff hs]
    simp [Proper, Node.leaves, Leaf.Accepted]
  | .group h kids => by
    rw [checkNode, Check.value_thenCheck_eq_none, checkHeader_iff hs hempty,
      checkNodes_iff hs hempty ⟨h, kids⟩ kids]
    cases hname : h.name with
    | none => simp [Proper, Node.leaves, hname, and_assoc]
    | some name => simp [Node.leaves, hname, Leaf.Accepted]

theorem checkNodes_iff (hs : s.JudgesAlone) (hempty : s.allowsEmpty = false)
    (enclosing : RuleSet) : (ns : List Node) → ((s.checkNodes enclosing ns).value = none ↔
      ProperAll (fun _ => True) ns ∧ ∀ l ∈ leavesOfAll ns, l.Accepted s)
  | [] => by simp [checkNodes, Check.accept, ProperAll, leavesOfAll]
  | n :: ns => by
    rw [checkNodes, Check.value_thenCheck_eq_none, checkNode_iff hs hempty enclosing n,
      checkNodes_iff hs hempty enclosing ns]
    simp only [ProperAll, leavesOfAll, List.mem_append, or_imp, forall_and]
    exact and_and_and_comm

end

/-- A tree is accepted exactly if no ruleset in it is empty and each leaf is a rule that is
accepted. -/
theorem validateRuleSet_iff (hs : s.JudgesAlone) (hempty : s.allowsEmpty = false) {t : RuleSet} :
    (s.validateRuleSet t).value = true ↔
      t.toNode.Proper (fun _ => True) ∧ ∀ l ∈ t.leaves, l.Accepted s := by
  rw [validateRuleSet, Check.value_verdict, Option.isNone_iff_eq_none]
  exact checkNode_iff hs hempty t t.toNode

end Schema

end BoolQuery
