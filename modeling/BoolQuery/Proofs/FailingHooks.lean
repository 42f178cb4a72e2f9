import BoolQuery.Proofs.Explanations
import BoolQuery.Proofs.Query.TreeMeaning

/-! Failing hooks. A hook that fails is taken to have answered no, so a schema does as well with
hooks that answer no where its own fail. Of two runs, under the one schema and the other, every step
keeps the values equal and the logs too, except for the events that tell of the failures. -/

namespace BoolQuery

/-- The second log is the first without some events that tell of hooks that were passed over, and
with a validator's refusal for its failure. -/
inductive Event.SameButFailures : List Event → List Event → Prop
  | nil : SameButFailures [] []
  | same {es es'} (e : Event) : SameButFailures es es' → SameButFailures (e :: es) (e :: es')
  | passedOver {e es es'} : e.tellsFailure = true → SameButFailures es es' →
      SameButFailures (e :: es) es'
  | refused {es es'} (field error : String) : SameButFailures es es' →
      SameButFailures (.rejected (.validatorFailed field error) :: es)
        (.rejected (.validatorRefused field) :: es')

namespace Event.SameButFailures

variable {es es' fs fs' : List Event}

theorem refl : (es : List Event) → SameButFailures es es
  | [] => nil
  | e :: es => same e (refl es)

theorem append (h : SameButFailures es es') (h' : SameButFailures fs fs') :
    SameButFailures (es ++ fs) (es' ++ fs') := by
  induction h with
  | nil => exact h'
  | same e _ ih => exact same e ih
  | passedOver he _ ih => exact passedOver he ih
  | refused field error _ ih => exact refused field error ih

theorem flatMap {α : Type} {f g : α → List Event} (h : ∀ a, SameButFailures (f a) (g a))
    (as : List α) : SameButFailures (as.flatMap f) (as.flatMap g) := by
  induction as with
  | nil => exact nil
  | cons a as ih => exact (h a).append ih

end Event.SameButFailures

/-- Two verdicts are the same, or a validator's failure and its refusal. -/
inductive Rejection.SameButFailure : Option Rejection → Option Rejection → Prop
  | same (reason : Option Rejection) : SameButFailure reason reason
  | refused (field error : String) :
      SameButFailure (some (.validatorFailed field error)) (some (.validatorRefused field))

namespace Logged

variable {α β γ δ : Type} {R : α → β → Prop} {Q : γ → δ → Prop}

/-- Two runs with related values, whose logs are the same but for failures. -/
structure Alike (R : α → β → Prop) (x : Logged α) (y : Logged β) : Prop where
  value : R x.value y.value
  log : Event.SameButFailures x.log y.log

theorem Alike.pure {a : α} {b : β} (h : R a b) : Alike R (pure a) (pure b) := ⟨h, .nil⟩

theorem Alike.bind {x : Logged α} {y : Logged β} {f : α → Logged γ} {g : β → Logged δ}
    (h : x.Alike R y) (hfg : ∀ a b, R a b → (f a).Alike Q (g b)) : (x >>= f).Alike Q (y >>= g) :=
  have hnext := hfg _ _ h.value
  ⟨hnext.value, h.log.append hnext.log⟩

theorem alike_refl (x : Logged α) : x.Alike Eq x := ⟨rfl, .refl _⟩

/-- Telling of a failure leaves the value as it is. -/
theorem alike_passedOver {e : Event} (he : e.tellsFailure = true) (a : α) :
    (ofEvent e >>= fun _ => (Pure.pure a : Logged α)).Alike Eq (Pure.pure a) :=
  ⟨rfl, .passedOver he .nil⟩

end Logged

namespace Hook
open Logged

variable {α β γ : Type} {R : β → γ → Prop}

/-- The hook, with an answer in place of a failure. What it reports of itself is kept. -/
def orAnswer (h : Hook α) (fallback : α) : Hook α := ⟨.ok (h.value.toOption.getD fallback), h.log⟩

def Answers (h : Hook α) : Prop := ∃ a, h.value = .ok a

theorem answers_orAnswer (h : Hook α) (fallback : α) : (h.orAnswer fallback).Answers := ⟨_, rfl⟩

/-- What goes on with a failure may go on with the fallback, if it comes to the same. -/
theorem alike_orAnswer (h : Hook α) (fallback : α) {f : Except String α → Logged β}
    {g : Except String α → Logged γ} (hok : ∀ a, (f (.ok a)).Alike R (g (.ok a)))
    (herror : ∀ error, (f (.error error)).Alike R (g (.ok fallback))) :
    (Logged.andThen h f).Alike R ((h.orAnswer fallback).andThen g) := by
  obtain ⟨value, log⟩ := h
  have hnext : (f value).Alike R (g (.ok (value.toOption.getD fallback))) := by
    cases value with
    | ok a => exact hok a
    | error error => exact herror error
  exact ⟨hnext.value, (Event.SameButFailures.refl log).append hnext.log⟩

end Hook

namespace Check
open Logged Rejection

/-- Checks that reject alike. -/
abbrev Alike (c c' : Check) : Prop := Logged.Alike SameButFailure c c'

variable {c c' : Check} {cs cs' : List Check}

theorem alike_refl (c : Check) : c.Alike c := ⟨.same _, .refl _⟩

/-- A demand on what two runs found. -/
theorem alike_require {α : Type} {x y : Logged α} (h : x.Alike Eq y) (f : α → Check) :
    Check.Alike (x >>= f) (y >>= f) :=
  h.bind fun a _ hab => hab ▸ alike_refl (f a)

theorem Alike.thenCheck {f g : Unit → Check} (h : c.Alike c') (hfg : (f ()).Alike (g ())) :
    (c.thenCheck f).Alike (c'.thenCheck g) :=
  h.bind fun a b hab => by
    cases hab with
    | same =>
      cases a with
      | none => exact hfg
      | some reason => exact alike_refl _
    | refused field error => exact .pure (.refused field error)

theorem Alike.verdict (h : c.Alike c') : c.verdict.Alike Eq c'.verdict :=
  h.bind fun a b hab => by
    cases hab with
    | same => exact Logged.alike_refl _
    | refused field error => exact ⟨rfl, .refused field error .nil⟩

theorem alike_inTurn (h : List.Forall₂ Alike cs cs') : (inTurn cs).Alike (inTurn cs') := by
  induction h with
  | nil => exact alike_refl _
  | cons hc _ ih => exact hc.thenCheck ih

end Check

namespace Field

/-- The field with a source that finds nothing where its own fails, and a validator that refuses
where its own fails. -/
def withoutFailures (f : Field) : Field :=
  { f with
    source := f.source.map fun find o => (find o).orAnswer none
    validator := f.validator.map fun validate o => (validate o).orAnswer false }

end Field

namespace Schema
open Logged

/-- An override that leaves the declared operators in force where it fails: there is none then,
unless the failing one reports something of itself, which only an override can. -/
def overrideOrDeclared (declared : List String) (answer : Hook (List String)) :
    Option (Hook (List String)) :=
  match answer with
  | ⟨.ok operators, log⟩ => some ⟨.ok operators, log⟩
  | ⟨.error _, []⟩ => none
  | ⟨.error _, e :: log⟩ => some ⟨.ok declared, e :: log⟩

/-- The schema with each failure of a hook replaced: that of an override by no override, that of a
source or the store by nothing found, and that of a validator by a refusal. The override is asked
about the fields as they were. -/
def withoutFailures (s : Schema) : Schema :=
  { s with
    field? := fun name => (s.field? name).map Field.withoutFailures
    override := fun name f =>
      let original := (s.field? name).getD f
      (s.override name original).bind (overrideOrDeclared (original.operators.getD []))
    store := s.store.map fun find name => (find name).orAnswer none }

structure NeverFails (s : Schema) : Prop where
  override : ∀ name f, ∀ answer ∈ s.override name f, answer.Answers
  store : ∀ find ∈ s.store, ∀ name, (find name).Answers
  source : ∀ name, ∀ f ∈ s.field? name, ∀ find ∈ f.source, ∀ o, (find o).Answers
  validator : ∀ name, ∀ f ∈ s.field? name, ∀ validate ∈ f.validator, ∀ o, (validate o).Answers

theorem answers_of_overrideOrDeclared {declared : List String} {answer answer' : Hook (List String)}
    (h : overrideOrDeclared declared answer = some answer') : answer'.Answers := by
  unfold overrideOrDeclared at h
  split at h
  · exact Option.some.inj h ▸ ⟨_, rfl⟩
  · cases h
  · exact Option.some.inj h ▸ ⟨_, rfl⟩

theorem neverFails_withoutFailures (s : Schema) : s.withoutFailures.NeverFails := by
  constructor
  case override =>
    intro name f answer hanswer
    obtain ⟨_, _, hanswer⟩ := Option.bind_eq_some_iff.1 hanswer
    exact answers_of_overrideOrDeclared hanswer
  case store =>
    intro find hfind name
    obtain ⟨find, _, rfl⟩ := Option.map_eq_some_iff.1 hfind
    exact (find name).answers_orAnswer none
  case source =>
    intro name f hf find hfind o
    obtain ⟨f, _, rfl⟩ := Option.map_eq_some_iff.1 hf
    obtain ⟨find, _, rfl⟩ := Option.map_eq_some_iff.1 hfind
    exact (find o).answers_orAnswer none
  case validator =>
    intro name f hf validate hvalidate o
    obtain ⟨f, _, rfl⟩ := Option.map_eq_some_iff.1 hf
    obtain ⟨validate, _, rfl⟩ := Option.map_eq_some_iff.1 hvalidate
    exact (validate o).answers_orAnswer false

variable {s : Schema} {f : Field} {name : String}

theorem field?_withoutFailures (s : Schema) (name : String) :
    s.withoutFailures.field? name = (s.field? name).map Field.withoutFailures := rfl

/-- The declared operators are the same for both fields, so they may stand in for an override. -/
theorem operatorsFor_alike (hf : s.field? name = some f) : (s.operatorsFor name f).Alike Eq
    (s.withoutFailures.operatorsFor name f.withoutFailures) := by
  simp only [operatorsFor, withoutFailures, Field.withoutFailures, hf, Option.getD_some]
  cases s.override name f with
  | none => exact Logged.alike_refl _
  | some answer =>
    obtain ⟨error | operators, log⟩ := answer
    · have htold : Event.SameButFailures (log ++ [.overrideFailed name error]) (log ++ []) :=
        (Event.SameButFailures.refl log).append (.passedOver rfl .nil)
      cases log with
      | nil => exact ⟨rfl, htold⟩
      | cons e log => exact ⟨rfl, htold⟩
    · exact Logged.alike_refl _

theorem acceptedFor_alike (f : Field) (o : Occurrence) :
    (acceptedFor f o).Alike Eq (acceptedFor f.withoutFailures o) := by
  simp only [acceptedFor, Field.withoutFailures]
  cases f.source with
  | none => exact Logged.alike_refl _
  | some find =>
    exact (find o).alike_orAnswer none (fun _ => Logged.alike_refl _)
      fun _ => alike_passedOver rfl f.optionValues

theorem lookup_alike (s : Schema) (name : String) :
    (s.lookup name).Alike Eq (s.withoutFailures.lookup name) := by
  simp only [lookup, withoutFailures]
  cases s.store with
  | none => exact Logged.alike_refl _
  | some find =>
    exact (find name).alike_orAnswer none (fun _ => Logged.alike_refl _)
      fun _ => alike_passedOver rfl none

theorem checkValidator_alike (f : Field) (o : Occurrence) :
    (checkValidator f o).Alike (checkValidator f.withoutFailures o) := by
  simp only [checkValidator, Field.withoutFailures]
  cases f.validator with
  | none => exact Check.alike_refl _
  | some validate =>
    exact (validate o).alike_orAnswer false (fun _ => Check.alike_refl _)
      fun error => .pure (.refused o.rule.field error)

/-- A rule has as many checks, of which three ask hooks. -/
theorem checksOfRule_alike (s : Schema) (o : Occurrence) :
    List.Forall₂ Check.Alike (s.checksOfRule o) (s.withoutFailures.checksOfRule o) := by
  rw [checksOfRule, checksOfRule, field?_withoutFailures]
  cases hf : s.field? o.rule.field with
  | none => exact .cons (Check.alike_refl _) .nil
  | some f =>
    refine .cons ?operator (.cons ?presence (.cons ?list (.cons ?accepted (.cons ?validator
      (.cons ?entity (.cons ?type .nil))))))
    case operator => exact Check.alike_require (operatorsFor_alike hf) _
    case accepted => exact Check.alike_require (acceptedFor_alike f o) _
    case validator => exact checkValidator_alike f o
    all_goals exact Check.alike_refl _

theorem checkHeader_alike (s : Schema) (h : Header) (childless : Bool) :
    (s.checkHeader h childless).Alike (s.withoutFailures.checkHeader h childless) := by
  unfold checkHeader
  cases h.name with
  | none => exact Check.alike_refl _
  | some name => exact Check.alike_require (lookup_alike s name) _

mutual

theorem checksOfNode_alike (enclosing : RuleSet) : (n : Node) →
    List.Forall₂ Check.Alike (s.checksOfNode enclosing n)
      (s.withoutFailures.checksOfNode enclosing n)
  | .rule r => checksOfRule_alike s ⟨r, enclosing⟩
  | .group h kids => .cons (checkHeader_alike s h _) (checksOfNodes_alike ⟨h, kids⟩ kids)

theorem checksOfNodes_alike (enclosing : RuleSet) : (ns : List Node) →
    List.Forall₂ Check.Alike (s.checksOfNodes enclosing ns)
      (s.withoutFailures.checksOfNodes enclosing ns)
  | [] => .nil
  | n :: ns => List.rel_append (checksOfNode_alike enclosing n) (checksOfNodes_alike enclosing ns)

end

end Schema

namespace Query
open Schema Logged

variable {s : Schema}

theorem valueOf_withoutFailures (field : String) (t : Token) :
    s.withoutFailures.valueOf field t = s.valueOf field t := by
  rw [Schema.valueOf, Schema.valueOf, field?_withoutFailures]
  cases s.field? field <;> rfl

theorem Expr.toTree_withoutFailures (e : Expr) : e.toTree s.withoutFailures = e.toTree s :=
  Expr.toTree_congr (funext₂ valueOf_withoutFailures)
    (fun name => (lookup_alike s name).value.symm) Option.isSome_map e

theorem lookupLog_alike (s : Schema) (names : List String) :
    Event.SameButFailures (lookupLog s names) (lookupLog s.withoutFailures names) :=
  .flatMap (fun name => (lookup_alike s name).log) names

theorem parse_alike (s : Schema) (text : String) :
    (parse s text).Alike Eq (parse s.withoutFailures text) := by
  refine (Logged.alike_refl _).bind fun _ _ _ => ?_
  unfold parseTokens
  split
  · exact ⟨rfl, lookupLog_alike s _⟩
  · rw [Expr.toTree_withoutFailures]
    exact ⟨rfl, lookupLog_alike s _⟩

end Query

namespace Schema

theorem validateRuleSet_alike (s : Schema) (t : RuleSet) :
    (s.validateRuleSet t).Alike Eq (s.withoutFailures.validateRuleSet t) := by
  simp only [validateRuleSet, checkRuleSet_eq_inTurn]
  exact (Check.alike_inTurn (checksOfNode_alike t t.toNode)).verdict

theorem checksOfText_alike (s : Schema) (text : String) :
    List.Forall₂ Check.Alike (s.checksOfText text) (s.withoutFailures.checksOfText text) := by
  have hparse := Query.parse_alike s text
  refine .cons (Check.alike_require hparse _) ?_
  rw [← hparse.value]
  split
  · exact .nil
  · exact checksOfNode_alike _ _

/-- A hook that fails only ever answers no: reading a text, validating it and validating a tree come
to what they come to under the schema with its failures replaced, which has none, and log the same
besides the failures. -/
theorem withoutFailures_alike (s : Schema) (text : String) (t : RuleSet) :
    s.withoutFailures.NeverFails ∧
      (Query.parse s text).Alike Eq (Query.parse s.withoutFailures text) ∧
        (s.validateText text).Alike Eq (s.withoutFailures.validateText text) ∧
          (s.validateRuleSet t).Alike Eq (s.withoutFailures.validateRuleSet t) := by
  refine ⟨neverFails_withoutFailures s, Query.parse_alike s text, ?_, validateRuleSet_alike s t⟩
  simp only [validateText, checkText_eq_inTurn]
  exact (Check.alike_inTurn (checksOfText_alike s text)).verdict

example :
    let f : Field := { operators := some ["="], validator := some fun _ => .refuse "no validator" }
    let s : Schema :=
      { field? := fun _ => some f
        override := fun _ _ => some (.refuse "no override") }
    let t := RuleSet.ofRule { field := "a", operator := "=", value := some (.bool true) }
    (s.validateRuleSet t).log = [.overrideFailed "a" "no override",
        .rejected (.validatorFailed "a" "no validator")] ∧
      (s.withoutFailures.validateRuleSet t).log = [.rejected (.validatorRefused "a")] := by
  decide

end Schema

end BoolQuery
