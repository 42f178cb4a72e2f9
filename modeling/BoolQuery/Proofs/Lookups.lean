import BoolQuery.Proofs.Explanations
import BoolQuery.Proofs.Query.Mentions

/-! Which stored rulesets are looked up. A schema is watched by letting its store report each lookup
while its other hooks report nothing. That changes no result, and shows that a definition that was
found is never looked into: a reading looks up what its tokens mention, and a validation what its tree
names, whatever the definitions refer to. -/

namespace BoolQuery

namespace Hook

variable {α : Type}

/-- The hook, with nothing reported of itself. -/
def silent (h : Hook α) : Hook α := ⟨h.value, []⟩

end Hook

namespace Field

def silent (f : Field) : Field :=
  { f with
    source := f.source.map fun find o => (find o).silent
    validator := f.validator.map fun validate o => (validate o).silent }

end Field

namespace Schema

/-- The schema with a store that reports each lookup, and with no other reports. The override is
asked about the fields as they were. -/
def watched (s : Schema) : Schema :=
  { s with
    field? := fun name => (s.field? name).map Field.silent
    override := fun name f => (s.override name ((s.field? name).getD f)).map Hook.silent
    store := s.store.map fun find name =>
      (find name).silent.announced "resolver called" [("name", name)] }

/-- The names among these that the schema has a store for. -/
def asked (s : Schema) (names : List String) : List String :=
  if s.store.isSome then names else []

end Schema

namespace Event

/-- The name that a lookup was reported for. -/
def lookup? : Event → Option String
  | report message [(_, name)] => if message = "resolver called" then some name else none
  | _ => none

end Event

/-- The names that were looked up, in order. -/
def lookups (log : List Event) : List String := log.filterMap Event.lookup?

theorem lookups_append (es es' : List Event) : lookups (es ++ es') = lookups es ++ lookups es' :=
  List.filterMap_append

namespace Logged

variable {α β : Type} {x y : Logged α} {f g : α → Logged β} {names names' : List String}

/-- The run `y` comes to the value of `x`, and looks up these names. -/
structure LooksUp (x y : Logged α) (names : List String) : Prop where
  value : y.value = x.value
  names : lookups y.log = names

theorem LooksUp.bind (h : LooksUp x y names) (hfg : ∀ a, LooksUp (f a) (g a) names') :
    LooksUp (x >>= f) (y >>= g) (names ++ names') := by
  refine ⟨?_, ?_⟩
  · rw [value_bind, value_bind, h.value, (hfg x.value).value]
  · rw [log_bind, lookups_append, h.names, (hfg y.value).names]

theorem looksUp_of_eq_nil (x : Logged α) (h : lookups x.log = []) : LooksUp x x [] := ⟨rfl, h⟩

/-- A silent hook looks nothing up, if what goes on with its answer does not. -/
theorem looksUp_silent {γ : Type} (h : Hook γ) {f : Except String γ → Logged α}
    (hf : ∀ a, lookups (f a).log = []) :
    LooksUp (Logged.andThen h f) (h.silent.andThen f) [] :=
  ⟨rfl, hf h.value⟩

/-- A lookup is reported before its answer is. -/
theorem looksUp_announced {γ : Type} (h : Hook γ) (name : String) {f : Except String γ → Logged α}
    (hf : ∀ a, lookups (f a).log = []) : LooksUp (Logged.andThen h f)
      (Logged.andThen (h.silent.announced "resolver called" [("name", name)]) f) [name] :=
  ⟨rfl, congrArg (name :: ·) (hf h.value)⟩

end Logged

namespace Check

variable {cs cs' ds ds' : List Check} {names names' : List String}

/-- The checks `cs'` come to what `cs` come to, and look up these names if all are run. -/
inductive LookUp : List Check → List Check → List String → Prop
  | nil : LookUp [] [] []
  | cons {c c' cs cs' names names'} : c.LooksUp c' names → LookUp cs cs' names' →
      LookUp (c :: cs) (c' :: cs') (names ++ names')

theorem LookUp.cons_silent {c c' : Check} (hc : c.LooksUp c' []) (h : LookUp cs cs' names) :
    LookUp (c :: cs) (c' :: cs') names := .cons hc h

theorem LookUp.append (h : LookUp cs cs' names) (h' : LookUp ds ds' names') :
    LookUp (cs ++ ds) (cs' ++ ds') (names ++ names') := by
  induction h with
  | nil => exact h'
  | cons hc _ ih =>
    rw [List.append_assoc]
    exact .cons hc ih

/-- Checks that are run in turn look up a first part of the names, and all of them if they accept. -/
theorem LookUp.inTurn (h : LookUp cs cs' names) :
    (inTurn cs').value = (inTurn cs).value ∧ lookups (inTurn cs').log <+: names ∧
      ((inTurn cs).value = none → lookups (inTurn cs').log = names) := by
  induction h with
  | nil => exact ⟨rfl, List.nil_prefix, fun _ => rfl⟩
  | @cons c c' _ _ names names' hc _ ih =>
    cases hvalue : c.value with
    | some reason =>
      rw [Check.inTurn, Check.inTurn, thenCheck_of_rejects hvalue,
        thenCheck_of_rejects (hc.value.trans hvalue), hc.names]
      refine ⟨hc.value, List.prefix_append names names', fun haccepts => ?_⟩
      rw [hvalue] at haccepts
      cases haccepts
    | none =>
      obtain ⟨hrest, hprefix, hall⟩ := ih
      rw [Check.inTurn, Check.inTurn, thenCheck_of_accepts hvalue,
        thenCheck_of_accepts (hc.value.trans hvalue), lookups_append, hc.names]
      exact ⟨hrest, (List.prefix_append_right_inj names).2 hprefix,
        fun haccepts => congrArg (names ++ ·) (hall haccepts)⟩

end Check

namespace Schema
open Logged

variable {s : Schema} {f : Field} {name : String} {names : List String}

theorem field?_watched (s : Schema) (name : String) :
    s.watched.field? name = (s.field? name).map Field.silent := rfl

theorem asked_append (s : Schema) (names names' : List String) :
    s.asked (names ++ names') = s.asked names ++ s.asked names' := by
  unfold asked
  split <;> rfl

theorem asked_nil (s : Schema) : s.asked [] = [] := by
  unfold asked
  split <;> rfl

theorem lookup_looksUp (s : Schema) (name : String) :
    (s.lookup name).LooksUp (s.watched.lookup name) (s.asked [name]) := by
  simp only [lookup, watched, asked]
  cases s.store with
  | none => exact ⟨rfl, rfl⟩
  | some find => exact looksUp_announced (find name) name fun a => by cases a <;> rfl

theorem operatorsFor_looksUp (hf : s.field? name = some f) :
    (s.operatorsFor name f).LooksUp (s.watched.operatorsFor name f.silent) [] := by
  simp only [operatorsFor, watched, Field.silent, hf, Option.getD_some]
  cases s.override name f with
  | none => exact ⟨rfl, rfl⟩
  | some answer => exact looksUp_silent answer fun a => by cases a <;> rfl

theorem acceptedFor_looksUp (f : Field) (o : Occurrence) :
    (acceptedFor f o).LooksUp (acceptedFor f.silent o) [] := by
  simp only [acceptedFor, Field.silent]
  cases f.source with
  | none => exact ⟨rfl, rfl⟩
  | some find => exact looksUp_silent (find o) fun a => by cases a <;> rfl

theorem checkValidator_looksUp (f : Field) (o : Occurrence) :
    (checkValidator f o).LooksUp (checkValidator f.silent o) [] := by
  simp only [checkValidator, Field.silent]
  cases f.validator with
  | none => exact ⟨rfl, rfl⟩
  | some validate =>
    refine looksUp_silent (validate o) fun a => ?_
    rcases a with error | _ | _ <;> rfl

/-- A demand on what a run finds looks nothing up. -/
theorem looksUp_require {α : Type} {x y : Logged α} (h : x.LooksUp y names) (ok : α → Bool)
    (reason : Rejection) : Logged.LooksUp (x >>= fun a => Check.require (ok a) reason)
      (y >>= fun a => Check.require (ok a) reason) names := by
  have hnames := h.bind fun a => looksUp_of_eq_nil (Check.require (ok a) reason) <| by
    rw [log_require]
    rfl
  rwa [List.append_nil] at hnames

theorem checksOfRule_lookUp (s : Schema) (o : Occurrence) :
    Check.LookUp (s.checksOfRule o) (s.watched.checksOfRule o) [] := by
  rw [checksOfRule, checksOfRule, field?_watched]
  cases hf : s.field? o.rule.field with
  | none => exact .cons_silent (looksUp_of_eq_nil _ rfl) .nil
  | some f =>
    refine .cons_silent ?operator (.cons_silent ?presence (.cons_silent ?list (.cons_silent ?accepted
      (.cons_silent ?validator (.cons_silent ?entity (.cons_silent ?type .nil))))))
    case operator => exact looksUp_require (operatorsFor_looksUp hf) _ _
    case accepted => exact looksUp_require (acceptedFor_looksUp f o) _ _
    case validator => exact checkValidator_looksUp f o
    case presence => exact looksUp_of_eq_nil _ (congrArg lookups (log_checkPresence o.rule))
    case entity => exact looksUp_of_eq_nil _ (congrArg lookups (log_checkEntity s o.rule))
    all_goals exact looksUp_of_eq_nil _ (congrArg lookups (log_require _ _))

theorem checkHeader_looksUp (s : Schema) (h : Header) (childless : Bool) :
    (s.checkHeader h childless).LooksUp (s.watched.checkHeader h childless)
      (s.asked h.name.toList) := by
  unfold checkHeader
  cases h.name with
  | none =>
    rw [Option.toList_none, asked_nil]
    exact looksUp_of_eq_nil _ (congrArg lookups (log_require _ _))
  | some name => exact looksUp_require (lookup_looksUp s name) _ _

mutual

theorem checksOfNode_lookUp (enclosing : RuleSet) : (n : Node) →
    Check.LookUp (s.checksOfNode enclosing n) (s.watched.checksOfNode enclosing n) (s.asked n.names)
  | .rule r => by
    rw [Node.names, asked_nil]
    exact checksOfRule_lookUp s ⟨r, enclosing⟩
  | .group h kids => by
    rw [Node.names, asked_append]
    exact .cons (checkHeader_looksUp s h _) (checksOfNodes_lookUp ⟨h, kids⟩ kids)

theorem checksOfNodes_lookUp (enclosing : RuleSet) : (ns : List Node) →
    Check.LookUp (s.checksOfNodes enclosing ns) (s.watched.checksOfNodes enclosing ns)
      (s.asked (Node.namesOfAll ns))
  | [] => by
    rw [Node.namesOfAll, asked_nil]
    exact .nil
  | n :: ns => by
    rw [Node.namesOfAll, asked_append]
    exact (checksOfNode_lookUp enclosing n).append (checksOfNodes_lookUp enclosing ns)

end

/-- Without a store only a tree without names is valid. -/
theorem asked_names_of_valid {t : RuleSet} (h : s.Valid t) :
    s.asked t.toNode.names = t.toNode.names := by
  unfold asked
  split
  · rfl
  · rename_i hstore
    refine (List.eq_nil_iff_forall_not_mem.2 fun name hname => ?_).symm
    obtain ⟨u, hu, huname⟩ := (Node.mem_names_iff t.toNode).1 hname
    obtain ⟨find, hfind, _⟩ := (h u hu).named name huname
    exact hstore (by simp [hfind])

/-- The event of a verdict reports no lookup. -/
theorem lookups_verdict (c : Check) : lookups c.verdict.log = lookups c.log := by
  rw [Check.log_verdict, lookups_append]
  cases c.value <;> exact List.append_nil _

/-- A validation looks up the names of the tree, each before those below it, up to where it is
refused. -/
theorem validateRuleSet_lookups (s : Schema) (t : RuleSet) :
    (s.watched.validateRuleSet t).value = (s.validateRuleSet t).value ∧
      lookups (s.watched.validateRuleSet t).log <+: t.toNode.names ∧
        ((s.validateRuleSet t).value = true →
          lookups (s.watched.validateRuleSet t).log = t.toNode.names) := by
  -- Without a store nothing is asked, but then a tree that is accepted has no names either.
  have hvalid : (s.validateRuleSet t).value = true → s.asked t.toNode.names = t.toNode.names :=
    fun h => asked_names_of_valid (validateRuleSet_eq_true_iff.1 h)
  obtain ⟨hvalue, hprefix, hall⟩ := (checksOfNode_lookUp (s := s) t t.toNode).inTurn
  rw [validateRuleSet, Check.value_verdict, checkRuleSet_eq_inTurn] at hvalid
  rw [validateRuleSet, validateRuleSet, Check.value_verdict, Check.value_verdict,
    checkRuleSet_eq_inTurn, checkRuleSet_eq_inTurn, lookups_verdict, checks, checks, hvalue]
  refine ⟨rfl, hprefix.trans ?_, fun haccepts => ?_⟩
  · unfold asked
    split
    · exact List.prefix_refl _
    · exact List.nil_prefix
  · rw [hall (Option.isNone_iff_eq_none.1 haccepts)]
    exact hvalid haccepts

end Schema

namespace Query
open Schema Logged

variable {s : Schema}

theorem valueOf_watched (field : String) (t : Token) :
    s.watched.valueOf field t = s.valueOf field t := by
  rw [Schema.valueOf, Schema.valueOf, field?_watched]
  cases s.field? field <;> rfl

theorem Expr.toTree_watched (e : Expr) : e.toTree s.watched = e.toTree s :=
  Expr.toTree_congr (funext₂ valueOf_watched) (fun name => (lookup_looksUp s name).value)
    Option.isSome_map e

theorem lookups_lookupLog (s : Schema) (names : List String) :
    lookups (lookupLog s.watched names) = s.asked names := by
  induction names with
  | nil => exact (asked_nil s).symm
  | cons name names ih =>
    have hcons : s.asked (name :: names) = s.asked [name] ++ s.asked names := asked_append s [name] names
    rw [lookupLog, List.flatMap_cons, lookups_append, (lookup_looksUp s name).names, hcons]
    exact congrArg (s.asked [name] ++ ·) ih

theorem value_parse_watched (s : Schema) (text : String) :
    (parse s.watched text).value = (parse s text).value := by
  show (parseTokens s.watched _).value = (parseTokens s _).value
  unfold parseTokens
  split
  · rfl
  · rw [Expr.toTree_watched]

/-- The event that counts the tokens reports no lookup. -/
theorem lookups_parse (s : Schema) (text : String) :
    lookups (parse s text).log = lookups (parseTokens s (tokenize text.toList)).log := rfl

end Query

namespace Schema
open Query

/-- Resolution is one level deep. Under every schema with a store, reading a text takes the same
tokens and looks up the names that they mention. Validating a tree looks up the names of its named
nodes in the order of the tree, up to a refusal if there is one. What is stored under a name has no
part in which names come after it. -/
theorem lookups_watched :
    (∀ text, ∃ k ≤ (tokenize text.toList).length, ∀ s : Schema,
      Takes (tokenize text.toList) k (parse s text).value ∧
        (parse s.watched text).value = (parse s text).value ∧
          (s.store.isSome = true →
            lookups (parse s.watched text).log = mentions true ((tokenize text.toList).take k))) ∧
      ∀ (s : Schema) (t : RuleSet),
        (s.watched.validateRuleSet t).value = (s.validateRuleSet t).value ∧
          lookups (s.watched.validateRuleSet t).log <+: t.toNode.names ∧
            ((s.validateRuleSet t).value = true →
              lookups (s.watched.validateRuleSet t).log = t.toNode.names) := by
  refine ⟨fun text => ?_, validateRuleSet_lookups⟩
  obtain ⟨k, hk, htakes⟩ := exists_takes (tokenize text.toList)
  refine ⟨k, hk, fun s => ⟨(htakes s).1, value_parse_watched s text, fun hstore => ?_⟩⟩
  rw [lookups_parse, (htakes s.watched).2, lookups_lookupLog, asked, if_pos hstore]

/-- Every definition refers to two others, of which one is itself. -/
theorem lookups_watched_cyclic :
    let stored := RuleSet.ofChildren .or
      [(RuleSet.reference "A").toNode, (RuleSet.reference "B").toNode]
    let s : Schema := { field? := fun _ => none, store := some fun _ => .answer (some stored) }
    lookups (parse s.watched "A | !(B & x = C) | A").log = ["A", "B", "A"] ∧
      lookups (parse s.watched "A & !(B | & C)").log = ["A", "B"] ∧
        lookups (s.watched.validateRuleSet (stored.withName "B")).log = ["B", "A", "B"] := by
  intro stored s
  refine ⟨?whole, ?failing, ?tree⟩
  case whole =>
    obtain ⟨k, _, hs⟩ := lookups_watched.1 "A | !(B & x = C) | A"
    obtain ⟨htakes, _, hlookups⟩ := hs s
    have hread : (parse s "A | !(B & x = C) | A").value.map (·.consumed) = .ok 12 := by
      decide +kernel
    obtain ⟨p, hp, hconsumed⟩ := exists_of_map_eq_ok hread
    rw [hp] at htakes
    obtain rfl : 12 = k := hconsumed.symm.trans htakes
    rw [hlookups rfl]
    decide +kernel
  case failing =>
    obtain ⟨k, _, hs⟩ := lookups_watched.1 "A & !(B | & C)"
    obtain ⟨htakes, _, hlookups⟩ := hs s
    have hread : (parse s "A & !(B | & C)").value.map (·.consumed) =
        .error (.unexpected "&" 6) := by
      decide +kernel
    rw [eq_error_of_map hread] at htakes
    obtain rfl : 6 = k := htakes.2.2 _ _ rfl
    rw [hlookups rfl]
    decide +kernel
  case tree => exact (lookups_watched.2 s (stored.withName "B")).2.2 (by decide)

end Schema

end BoolQuery
