import BoolQuery.Proofs.Query.TidyTrees

/-! The text of a query does not tell whether its references have definitions. Where rulesets are
stored, a negated reference is wrapped and not marked, so the trees of one text differ with and
without a store. But as long as no definition is a negation they are written alike: what is joined,
negated and put in parentheses alike stays alike. -/

namespace BoolQuery

namespace RuleSet
open Node Query

variable {t u t' u' : RuleSet} {c : Condition} {name : String}

/-- The tree is the ruleset of that name, or a wrapper around it that may negate it. -/
def Refers (t : RuleSet) (name : String) : Prop :=
  (t.name = some name ∧ t.negated = false) ∨
    (t.name = none ∧ WrapsName t.toHeader t.children name)

/-- Trees that are written alike anywhere, `t` by the names of definitions and `u` by mere
references. -/
inductive WrittenAlike (t u : RuleSet) : Prop
  | rule (r : Rule) (ht : t.name = none ∧ t.children = [.rule r])
    (hu : u.name = none ∧ u.children = [.rule r]) (negated : t.negated = u.negated)
  | reference (name : String) (ht : t.Refers name) (hu : u.name = some name)
    (negated : t.negated = u.negated)
  | joined (ht : t.name = none ∧ 2 ≤ t.children.length)
    (hu : u.name = none ∧ 2 ≤ u.children.length) (condition : t.condition = u.condition)
    (negated : t.negated = u.negated)
    (texts : joinedText t.condition t.children = joinedText u.condition u.children)

theorem Refers.queryText (h : t.Refers name) (outer : Option Condition) :
    t.toNode.queryText outer = nameText t.negated name := by
  obtain ⟨hname, -⟩ | ⟨hname, hwraps⟩ := h
  · exact queryText_of_name hname
  · exact queryText_of_wrapsName hname hwraps

theorem Refers.negated (h : t.Refers name) (hstore : t.name.isSome = false) (b : Bool) :
    Refers { t with negated := b } name := by
  obtain ⟨hname, -⟩ | ⟨hname, hwraps⟩ := h
  · simp [hname] at hstore
  · exact .inr ⟨hname, hwraps⟩

theorem WrittenAlike.queryText (h : WrittenAlike t u) (outer : Option Condition) :
    t.toNode.queryText outer = u.toNode.queryText outer := by
  cases h with
  | rule r ht hu hneg =>
    rw [toNode, toNode, ht.2, hu.2, queryText_of_rule ht.1, queryText_of_rule hu.1, hneg]
  | reference name ht hu hneg =>
    rw [ht.queryText outer, hneg]
    exact (queryText_of_name hu).symm
  | joined ht hu hcond hneg htexts =>
    rw [toNode, toNode, queryText_of_many ht.1 ht.2, queryText_of_many hu.1 hu.2, hneg, htexts,
      Header.isLooserThan, Header.isLooserThan, hcond]

/-- A tree that is not named is negated by its mark. -/
theorem WrittenAlike.marked (h : WrittenAlike t u) (hname : t.name.isSome = false) :
    WrittenAlike { t with negated := !t.negated } { u with negated := !u.negated } := by
  cases h with
  | rule r ht hu hneg => exact .rule r ht hu (congrArg not hneg)
  | reference name ht hu hneg => exact .reference name (ht.negated hname _) hu (congrArg not hneg)
  | joined ht hu hcond hneg htexts => exact .joined ht hu hcond (congrArg not hneg) htexts

/-- A named tree is negated by a wrapper, and by its mark where it has no definition. -/
theorem WrittenAlike.wrapped (h : WrittenAlike t u) (hname : t.name = some name)
    (hneg : t.negated = false) :
    WrittenAlike { negated := true, children := [t.toNode] } { u with negated := !u.negated } := by
  have hwraps : WrapsName { negated := true } [t.toNode] name := ⟨rfl, _, _, rfl, hname, hneg⟩
  cases h with
  | rule r ht => rw [ht.1] at hname; cases hname
  | joined ht => rw [ht.1] at hname; cases hname
  | reference name' ht hu hsame =>
    obtain ⟨ht, -⟩ | ⟨ht, -⟩ := ht
    · obtain rfl : name = name' := Option.some.inj (hname.symm.trans ht)
      exact .reference name (.inr ⟨rfl, hwraps⟩) hu (by simp [← hsame, hneg])
    · rw [ht] at hname
      cases hname

theorem WrittenAlike.parenthesized (h : WrittenAlike t u) :
    WrittenAlike { t with parenthesized := true } { u with parenthesized := true } := by
  cases h with
  | rule r ht hu hneg => exact .rule r ht hu hneg
  | reference name ht hu hneg => exact .reference name ht hu hneg
  | joined ht hu hcond hneg htexts => exact .joined ht hu hcond hneg htexts

/-- Joined trees are unmarked and of several nodes, and their operands are written alike. -/
theorem WrittenAlike.merge (ht : WrittenAlike t u) (ht' : WrittenAlike t' u')
    (hl : t.toNode.Tidy) (hr : t'.toNode.Tidy) (hl' : u.toNode.Tidy) (hr' : u'.toNode.Tidy) :
    WrittenAlike (merge c t t') (merge c u u') := by
  have hm := merges_merge c t t'
  have hm' := merges_merge c u u'
  obtain ⟨hneg, hname, _⟩ := Header.isPlain_iff.1 hm.isPlain
  obtain ⟨hneg', hname', _⟩ := Header.isPlain_iff.1 hm'.isPlain
  have hcond := hm.condition_eq
  have hcond' := hm'.condition_eq
  have htexts : joinedText c (RuleSet.merge c t t').children =
      joinedText c (RuleSet.merge c u u').children := by
    rw [← queryText_of_isPlain hm.isPlain (hm.tidy hl hr) (.inl hcond),
      ← queryText_of_isPlain hm'.isPlain (hm'.tidy hl' hr') (.inl hcond'),
      hm.queryText hl hr, hm'.queryText hl' hr', ht.queryText, ht'.queryText]
  exact .joined ⟨hname, hm.several hl hr⟩ ⟨hname', hm'.several hl' hr'⟩ (hcond.trans hcond'.symm)
    (hneg.trans hneg'.symm) (by rwa [hcond, hcond'])

end RuleSet

namespace Schema
open Query

/-- The schema without its stored rulesets. -/
def withoutStore (s : Schema) : Schema := { s with store := none }

/-- No ruleset that the schema stores is a negation. -/
def StoresNoNegation (s : Schema) : Prop :=
  ∀ find, s.store = some find → ∀ name t, (find name).value = .ok (some t) → t.negated = false

theorem StoresNoNegation.negated_resolve {s : Schema} (hs : s.StoresNoNegation) (name : String) :
    (Expr.resolve s name).negated = false := by
  unfold Expr.resolve
  cases hfound : (s.lookup name).value with
  | none => rfl
  | some t =>
    unfold lookup at hfound
    cases hstore : s.store with
    | none => simp [hstore] at hfound
    | some find =>
      simp only [hstore, Logged.value_bind] at hfound
      cases hanswer : (find name).value with
      | error _ => simp [hanswer] at hfound
      | ok found =>
        obtain rfl : found = some t := by simpa [hanswer] using hfound
        exact hs find hstore name t hanswer

end Schema

namespace Query
open RuleSet

variable {s : Schema}

theorem Clause.toRule_withoutStore (c : Clause) : c.toRule s.withoutStore = c.toRule s := by
  cases c <;> rfl

namespace Expr

theorem writtenAlike_toTree (hstore : s.store.isSome = true) (hs : s.StoresNoNegation) (e : Expr) :
    WrittenAlike (e.toTree s) (e.toTree s.withoutStore) := by
  have hnone : s.withoutStore.store = none := rfl
  have htidy := tidy_toTree_of_unnegated hs.negated_resolve
  have htidy' := tidy_toTree hnone
  induction e with
  | clause c =>
    rw [toTree, toTree, Clause.toRule_withoutStore]
    exact .rule _ ⟨rfl, rfl⟩ ⟨rfl, rfl⟩ rfl
  | reference name =>
    rw [toTree_reference hnone]
    have hneg := hs.negated_resolve name
    exact .reference name (.inl ⟨name_resolve s name, hneg⟩) rfl hneg
  | not e ih =>
    rw [toTree_not hnone, toTree, negate]
    split
    next hnamed =>
      have hname := (Bool.and_eq_true_iff.1 hnamed).1
      have hneg := negated_toTree_of_name hstore (fun name _ => hs.negated_resolve name) hname
      obtain ⟨name, hname⟩ := Option.isSome_iff_exists.1 hname
      exact ih.wrapped hname hneg
    next hunnamed =>
      rw [hstore, Bool.and_true, Bool.not_eq_true] at hunnamed
      exact ih.marked hunnamed
  | group e ih => exact ih.parenthesized
  | join c l r ihl ihr => exact ihl.merge ihr (htidy l) (htidy r) (htidy' l) (htidy' r)

end Expr

/-- Without the store a text is read as before: it fails alike, or as much of it is a query, which
is written by the same text. -/
theorem parse_toQuery_withoutStore (hstore : s.store.isSome = true) (hs : s.StoresNoNegation)
    (text : String) :
    (∃ error, (parse s text).value = .error error ∧
      (parse s.withoutStore text).value = .error error) ∨
    ∃ p q, (parse s text).value = .ok p ∧ (parse s.withoutStore text).value = .ok q ∧
      p.consumed = q.consumed ∧ p.total = q.total ∧ p.tree.toQuery = q.tree.toQuery := by
  simp only [parse, Logged.value_bind, parseTokens]
  cases Expr.read (tokenize text.toList) with
  | error f => exact .inl ⟨_, rfl, rfl⟩
  | ok p =>
    refine .inr ⟨_, _, rfl, rfl, rfl, rfl, ?_⟩
    rw [toQuery_simplify (Expr.tidy_toTree_of_unnegated hs.negated_resolve p.value),
      toQuery_simplify (Expr.tidy_toTree rfl p.value)]
    exact congrArg String.ofList ((Expr.writtenAlike_toTree hstore hs p.value).queryText none)

/-- `!!A` is a wrapper around the definition of `A`, which the joined tree takes in. -/
theorem parse_toQuery_withoutStore_wrapped :
    let a : RuleSet := .ofChildren .or [.rule (.nullTest "b" false), .rule (.nullTest "c" false)]
    let s : Schema :=
      { field? := fun _ => none
        store := some fun name => .answer (if name = "A" then some a else none) }
    ∃ p q, (parse s "!!A & !(!A | b)").value = .ok p ∧
      (parse s.withoutStore "!!A & !(!A | b)").value = .ok q ∧
      p.tree.toQuery = q.tree.toQuery ∧ q.tree.toQuery = "A & !(!A | b)" := by
  intro a s
  have hs : s.StoresNoNegation := by
    rintro find hfind name t hfound
    obtain rfl := Option.some.inj hfind
    obtain ⟨-, ht⟩ := Option.ite_none_right_eq_some.1 (Except.ok.inj hfound)
    exact Option.some.inj ht ▸ rfl
  have hread : (parse s.withoutStore "!!A & !(!A | b)").value.map (·.tree.toQuery) =
      .ok "A & !(!A | b)" := by decide +kernel
  obtain ⟨error, _, herror⟩ | ⟨p, q, hp, hq, _, _, hsame⟩ :=
    parse_toQuery_withoutStore rfl hs "!!A & !(!A | b)"
  · rw [herror] at hread
    cases hread
  · rw [hq] at hread
    exact ⟨p, q, hp, hq, hsame, Except.ok.inj hread⟩

end Query

end BoolQuery
