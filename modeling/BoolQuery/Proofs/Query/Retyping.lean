import BoolQuery.Proofs.Query.StatedRules

/-! One text read under two schemas. Where a text ends, and what is wrong with it, is the same under
both. The trees differ in what the schemas store and in the values of their rules; where nothing is
stored, in the values alone. A rule has then a scalar under both schemas, a list of as many scalars,
or nothing, and what is joined, negated, put in parentheses and simplified alike stays alike. -/

namespace BoolQuery

namespace Value

def IsScalar (v : Value) : Prop := v.asList? = none

/-- What two rules compare their fields with has one form: nothing, scalars, or lists of as many
scalars. -/
inductive SameForm : Option Value → Option Value → Prop
  | absent : SameForm none none
  | scalar {v w} : v.IsScalar → w.IsScalar → SameForm (some v) (some w)
  | list {vs ws} : List.Forall₂ (fun v w => v.IsScalar ∧ w.IsScalar) vs ws →
      SameForm (some (.list vs)) (some (.list ws))

theorem isScalar_valueOf (s : Schema) (field : String) (t : Query.Token) :
    (s.valueOf field t).IsScalar := by
  rcases valueOf_cases s field t with h | ⟨_, _, ⟨_, _, _, h⟩ | ⟨_, _, h⟩ | ⟨_, _, h⟩⟩
  all_goals
    rw [h]
    rfl

end Value

/-- Rules that differ in their values at most, and not in the form of these. -/
structure Rule.Retyped (r r' : Rule) : Prop where
  field : r.field = r'.field
  operator : r.operator = r'.operator
  entity : r.entity = r'.entity
  value : Value.SameForm r.value r'.value

namespace Node

mutual

/-- Nodes of one shape and with equal headers, whose rules differ in their values at most. -/
inductive Retyped : Node → Node → Prop
  | rule {r r'} : r.Retyped r' → Retyped (.rule r) (.rule r')
  | group {kids kids'} (h : Header) : RetypedAll kids kids' →
      Retyped (.group h kids) (.group h kids')

inductive RetypedAll : List Node → List Node → Prop
  | nil : RetypedAll [] []
  | cons {n m ns ms} : n.Retyped m → RetypedAll ns ms → RetypedAll (n :: ns) (m :: ms)

end

variable {h : Header} {ns ms ns' ms' : List Node}

theorem RetypedAll.length_eq (hns : RetypedAll ns ms) : ns.length = ms.length := by
  induction ns generalizing ms with
  | nil =>
    cases hns
    rfl
  | cons n ns ih =>
    cases hns with
    | cons _ hns => simp [ih hns]

theorem RetypedAll.append (hns : RetypedAll ns ms) (hns' : RetypedAll ns' ms') :
    RetypedAll (ns ++ ns') (ms ++ ms') := by
  induction ns generalizing ms with
  | nil =>
    cases hns
    exact hns'
  | cons n ns ih =>
    cases hns with
    | cons hn hns => exact .cons hn (ih hns)

/-- Whether a group gives way to its child shows in its header and in the number of children. -/
theorem RetypedAll.unwrap (hns : RetypedAll ns ms) : (unwrap h ns).Retyped (unwrap h ms) := by
  cases hns with
  | nil => exact .group h .nil
  | cons hn hns =>
    cases hns with
    | cons hn' hns => exact .group h (.cons hn (.cons hn' hns))
    | nil =>
      simp only [Node.unwrap]
      split
      · exact hn
      · exact .group h (.cons hn .nil)

mutual

theorem Retyped.simplify {m : Node} : (n : Node) → n.Retyped m → n.simplify.Retyped m.simplify
  | .rule _, .rule hr => .rule hr
  | .group _ kids, .group _ hkids => (RetypedAll.simplifyAll kids hkids).unwrap

theorem RetypedAll.simplifyAll {ms : List Node} : (ns : List Node) → RetypedAll ns ms →
    RetypedAll (simplifyAll ns) (simplifyAll ms)
  | [], .nil => .nil
  | n :: ns, .cons hn hns => .cons (Retyped.simplify n hn) (RetypedAll.simplifyAll ns hns)

end

end Node

namespace RuleSet
open Node

variable {c : Condition} {l r l' r' t u : RuleSet}

structure Retyped (t u : RuleSet) : Prop where
  header : t.toHeader = u.toHeader
  children : RetypedAll t.children u.children

theorem Retyped.toNode (h : t.Retyped u) : t.toNode.Retyped u.toNode := by
  obtain ⟨header, kids⟩ := t
  obtain ⟨rfl, hkids⟩ := h
  exact .group _ hkids

/-- Joining looks at headers and counts children. -/
theorem Retyped.merge (hl : l.Retyped l') (hr : r.Retyped r') :
    (merge c l r).Retyped (merge c l' r') := by
  have hlkids := hl.children
  have hrkids := hr.children
  simp only [RuleSet.merge, hl.header, hr.header, hlkids.length_eq, hrkids.length_eq]
  split
  · split
    · exact ⟨rfl, hlkids.append hrkids⟩
    · exact ⟨rfl, hlkids.append (.cons hr.toNode .nil)⟩
  split
  · exact ⟨rfl, hlkids.append hrkids⟩
  · exact ⟨rfl, .cons hl.toNode (.cons hr.toNode .nil)⟩

theorem Retyped.simplify (h : t.Retyped u) : t.simplify.Retyped u.simplify :=
  ⟨h.header, RetypedAll.simplifyAll t.children h.children⟩

end RuleSet

namespace Query

/-- A clause states rules of one form, whatever types its literals have. -/
theorem Clause.retyped_toRule (s s' : Schema) (c : Clause) :
    (c.toRule s).Retyped (c.toRule s') := by
  have hscalar (field : String) (t : Token) :=
    And.intro (Value.isScalar_valueOf s field t) (Value.isScalar_valueOf s' field t)
  refine ⟨by cases c <;> rfl, by cases c <;> rfl, by cases c <;> rfl, ?_⟩
  cases c with
  | search t => exact .scalar (hscalar _ t).1 (hscalar _ t).2
  | nullTest field negated => exact .absent
  | compare field operator t => exact .scalar (hscalar field t).1 (hscalar field t).2
  | among field operator ts =>
    refine .list ?_
    rw [List.forall₂_map_left_iff, List.forall₂_map_right_iff, List.forall₂_same]
    exact fun t _ => hscalar field t

/-- The trees of an expression without stored rulesets. -/
theorem Expr.retyped_toTree {s s' : Schema} (hs : s.store = none) (hs' : s'.store = none)
    (e : Expr) : (e.toTree s).Retyped (e.toTree s') := by
  induction e with
  | clause c => exact ⟨rfl, .cons (.rule (c.retyped_toRule s s')) .nil⟩
  | reference name =>
    simp only [toTree, resolve, Schema.lookup, hs, hs']
    exact ⟨rfl, .nil⟩
  | not e ih =>
    obtain ⟨hheader, hkids⟩ := ih
    simp only [toTree, negate, hs, hs', Option.isSome_none, Bool.and_false, Bool.false_eq_true,
      if_false, hheader]
    exact ⟨rfl, hkids⟩
  | group e ih =>
    obtain ⟨hheader, hkids⟩ := ih
    simp only [toTree, hheader]
    exact ⟨rfl, hkids⟩
  | join c l r ihl ihr => exact ihl.merge ihr

/-- A text is read as far under one schema as under another, or goes wrong at the same place; and
where neither stores rulesets, its trees differ in the values of their rules alone. -/
theorem parse_retyped (s s' : Schema) (text : String) :
    (∃ error, (parse s text).value = .error error ∧ (parse s' text).value = .error error) ∨
    ∃ p q, (parse s text).value = .ok p ∧ (parse s' text).value = .ok q ∧
      p.consumed = q.consumed ∧ p.total = q.total ∧
      (s.store = none → s'.store = none → p.tree.Retyped q.tree) := by
  simp only [parse, Logged.value_bind, parseTokens]
  cases Expr.read (tokenize text.toList) with
  | error f => exact .inl ⟨_, rfl, rfl⟩
  | ok p =>
    refine .inr ⟨_, _, rfl, rfl, rfl, rfl, fun hs hs' => ?_⟩
    exact (Expr.retyped_toTree hs hs' p.value).simplify

/-- Under the one schema the values are booleans, under the other strings. -/
theorem parse_retyped_strings :
    let s : Schema := { field? := fun _ => some { type := .boolean } }
    let s' : Schema := { field? := fun _ => none }
    let text := "a=true & !(A | b=x | c)"
    ∃ p q, (parse s text).value = .ok p ∧ (parse s' text).value = .ok q ∧
      (p.tree == q.tree) = false ∧ p.tree.Retyped q.tree := by
  intro s s' text
  have hdiffer : ((parse s text).value.toOption.bind fun p =>
      (parse s' text).value.toOption.map fun q => p.tree == q.tree) = some false := by
    decide +kernel
  obtain ⟨error, herror, _⟩ | ⟨p, q, hp, hq, _, _, hsame⟩ := parse_retyped s s' text
  · rw [herror] at hdiffer
    cases hdiffer
  · rw [hp, hq] at hdiffer
    exact ⟨p, q, hp, hq, Option.some.inj hdiffer, hsame rfl rfl⟩

end Query

end BoolQuery
