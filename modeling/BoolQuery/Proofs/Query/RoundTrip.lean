import BoolQuery.Proofs.Query.Writable

/-! From a tree to its text and back. The text of a tree without stored rulesets is read as a
tree with the same meaning, unless a `!` before one of the names `CONTAINS` and `LIKE` makes
an operator of it. -/

namespace BoolQuery.Query

/-- The text of the tree is a whole query, and its tree has equal leaves and the same truth.
Rules that are equal as rules are taken to be equally true: there are two zeros, and only one
of them is written. -/
def RoundTrips (s : Schema) (t : RuleSet) : Prop :=
  ∃ p, (parse s t.toQuery).value = .ok p ∧ p.isComplete = true ∧
    List.Forall₂ Leaf.Same p.tree.leaves t.leaves ∧
    ∀ a : Assignment, a.Respects → p.tree.holds a = t.holds a

theorem toList_toQuery (t : RuleSet) : t.toQuery.toList = t.toNode.queryText none := by
  rw [RuleSet.toQuery, String.toList_ofList]

variable {s : Schema} {t : RuleSet}

/-- The text of a legible tree spells an expression with the meaning of the tree. -/
theorem exists_spells_toQuery (ht : t.toNode.Proper (Rule.Legible s))
    (hg : t.toNode.glues = false) :
    ∃ e, Expr.Spells (.chain .or) (tokenize t.toQuery.toList) e ∧
      Means s e t.holds t.leaves ∧ e.depth = t.toNode.nesting none := by
  obtain ⟨ts, e, hlex, hspells, _, hmeans, hdepth⟩ :=
    (Node.sound_of_proper t.toNode ht).renders hg none
  rw [toList_toQuery, hlex.tokenize]
  exact ⟨e, hspells, hmeans, hdepth⟩

/-- A text in which a `!` makes a keyword is no query. -/
theorem not_spells_of_glues (ht : t.toNode.Proper (Rule.Legible s))
    (hg : t.toNode.glues = true) {level : Level} {e : Expr} :
    ¬ Expr.Spells level (tokenize t.toQuery.toList) e := by
  have hmisread := (Node.sound_of_proper t.toNode ht).derails hg none [] .nil
  rw [List.append_nil, ← toList_toQuery] at hmisread
  exact Expr.not_spells_of_misread hmisread

/-- The text of a legible tree is a whole query only if no `!` in it makes a keyword and it
does not nest too deep. What it is read as then has the meaning of the tree. -/
theorem parse_toQuery_sound (ht : t.toNode.Proper (Rule.Legible s)) {p : Parsed}
    (h : (parse s t.toQuery).value = .ok p ∧ p.isComplete = true) :
    t.toNode.glues = false ∧ t.toNode.nesting none ≤ maxDepth ∧
      ∃ e, Means s e t.holds t.leaves ∧ p.tree = (e.toTree s).simplify := by
  obtain ⟨e, hspells, hd, rfl⟩ := parseTokens_iff.1 h
  have hg : t.toNode.glues = false :=
    Bool.eq_false_iff.2 fun hg => not_spells_of_glues ht hg hspells
  obtain ⟨e', hspells', hmeans, hdepth⟩ := exists_spells_toQuery ht hg
  obtain rfl := hspells.unique hspells'
  exact ⟨hg, hdepth ▸ hd, e, hmeans, rfl⟩

theorem parse_toQuery_complete (ht : t.toNode.Proper (Rule.Legible s))
    (hg : t.toNode.glues = false) (hd : t.toNode.nesting none ≤ maxDepth) :
    ∃ p, (parse s t.toQuery).value = .ok p ∧ p.isComplete = true := by
  obtain ⟨e, hspells, _, hdepth⟩ := exists_spells_toQuery ht hg
  exact ⟨_, parseTokens_iff.2 ⟨e, hspells, hdepth ▸ hd, rfl⟩⟩

/-- A legible tree round-trips exactly if no `!` in its text makes a keyword of what it negates
and the text does not nest too deep. -/
theorem roundTrips_iff_of_legible (hs : s.store = none) (ht : t.toNode.Proper (Rule.Legible s)) :
    RoundTrips s t ↔ t.toNode.glues = false ∧ t.toNode.nesting none ≤ maxDepth := by
  constructor
  · rintro ⟨p, h, hc, _⟩
    obtain ⟨hg, hd, _⟩ := parse_toQuery_sound ht ⟨h, hc⟩
    exact ⟨hg, hd⟩
  · rintro ⟨hg, hd⟩
    obtain ⟨p, h, hc⟩ := parse_toQuery_complete ht hg hd
    obtain ⟨_, _, e, hmeans, htree⟩ := parse_toQuery_sound ht ⟨h, hc⟩
    refine ⟨p, h, hc, ?_, ?_⟩
    · rw [htree, Expr.leaves_simplify_toTree]
      exact hmeans.leaves
    · intro a ha
      rw [htree, RuleSet.holds_simplify, ← hmeans.holds a ha]
      exact Expr.holds_toTree a fun name _ => Expr.negated_resolve_of_store_eq_none hs name

/-- A tree of writable rules round-trips exactly if no `!` in its text makes a keyword of what
it negates and its text does not nest too deep; and where a `!` makes a keyword, it stands before
the name `CONTAINS` or `LIKE`. -/
theorem roundTrips_iff_of_writable (hs : s.store = none)
    (ht : t.toNode.Proper (Rule.Writable s)) :
    (RoundTrips s t ↔ t.toNode.glues = false ∧ t.toNode.nesting none ≤ maxDepth) ∧
      (t.toNode.glues = true → Node.NamesKeyword t.leaves) :=
  ⟨roundTrips_iff_of_legible hs (Node.Proper.mono (fun _ => Rule.Writable.legible) _ ht),
    Node.namesKeyword_of_glues _ ht⟩

/-- The negated name `LIKE` beside a rule: the text `a=b & !LIKE` is no query. -/
theorem roundTrips_iff_of_writable_like :
    let s : Schema := { field? := fun _ => none }
    let r : Rule := { field := "a", operator := "=", value := some (.string "b") }
    let t : RuleSet :=
      { children := [.rule r, .group { name := some "LIKE", negated := true } []] }
    s.store = none ∧ t.toNode.Proper (Rule.Writable s) ∧ t.toNode.nesting none ≤ maxDepth ∧
      ¬ RoundTrips s t := by
  intro s r t
  have hfield : IsWritableField "a" :=
    { isWord := (IsBare.of_all (by decide) (by decide)).isWord
      not_name := by decide +kernel
      no_quote := by decide
      not_keyword := by decide +kernel }
  have hsearch : Rule.isDocumentSearch { field := "a", operator := "=" } = false := by
    simp [Rule.isDocumentSearch, Rule.documentField]
  have hrule : r.Writable s := by
    refine .comparison hfield (.sign (by simp)) hsearch (.inr rfl) ?_
    intro w _
    simp [Clause.completesKeyword]
  have hname : isRuleSetName "LIKE" = true := by decide +kernel
  have ht : t.toNode.Proper (Rule.Writable s) := ⟨by simp [t], hrule, hname, trivial⟩
  have hd : t.toNode.nesting none ≤ maxDepth := by decide
  have hglues : t.toNode.glues = true := by decide +kernel
  refine ⟨rfl, ht, hd, ?_⟩
  intro h
  rw [(roundTrips_iff_of_writable rfl ht).1, hglues] at h
  cases h.1

end BoolQuery.Query
