import BoolQuery.Proofs.Query.TreeMeaning
import BoolQuery.Proofs.RuleSet.Parts

/-! Queries without groups. Clauses joined by `&`, and these joined by `|`, give a flat tree: an
`or` of rules and of `and`s of rules, in the order of the text. Joining from the left makes this
shape up to wrappers, which stand around a single rule and which simplifying removes. -/

namespace BoolQuery

namespace Node

/-- Rules under an `and`, or the only one of them. -/
def conjunction : List Rule → Node
  | [r] => rule r
  | rs => group { condition := .and } (rs.map rule)

theorem simplifyAll_append (ns ms : List Node) :
    simplifyAll (ns ++ ms) = simplifyAll ns ++ simplifyAll ms := by
  induction ns with
  | nil => rfl
  | cons n ns ih => simp [simplifyAll, ih]

theorem simplifyAll_rules (rs : List Rule) : simplifyAll (rs.map rule) = rs.map rule := by
  induction rs with
  | nil => rfl
  | cons r rs ih => rw [List.map_cons, simplifyAll, ih, simplify]

/-- A single rule stands for itself. -/
theorem simplifyAll_rule {rs : List Rule} (h : rs.length = 1) :
    simplifyAll (rs.map rule) = [conjunction rs] := by
  obtain ⟨r, rfl⟩ := List.length_eq_one_iff.1 h
  rfl

theorem rulesetsOfAll_rules (rs : List Rule) : rulesetsOfAll (rs.map rule) = [] := by
  induction rs with
  | nil => rfl
  | cons r rs ih => exact ih

theorem isPlain_of_mem_conjunction {rs : List Rule} {u : RuleSet}
    (hu : u ∈ (conjunction rs).rulesets) : u.isPlain = true := by
  unfold conjunction at hu
  split at hu
  · cases hu
  · rw [rulesets, rulesetsOfAll_rules, List.mem_singleton] at hu
    rw [hu]
    rfl

end Node

namespace RuleSet
open Node

/-- The tree of rules that are joined by `&`. -/
def ofRules (rs : List Rule) : RuleSet := ofChildren .and (rs.map .rule)

/-- The tree of groups of rules, which stand under an `or` if there are several. -/
def disjunction : List (List Rule) → RuleSet
  | [rs] => ofRules rs
  | gs => ofChildren .or (gs.map conjunction)

theorem disjunction_of_length {gs : List (List Rule)} (h : 2 ≤ gs.length) :
    disjunction gs = ofChildren .or (gs.map conjunction) := by
  unfold disjunction
  split
  · simp at h
  · rfl

/-- Groups of rules, joined from the left. The children of an `or` may still have wrappers. -/
inductive Joined : List (List Rule) → RuleSet → Prop
  | one (rs : List Rule) : Joined [rs] (ofRules rs)
  | several {gs kids} : 2 ≤ gs.length → simplifyAll kids = gs.map conjunction →
      Joined gs (ofChildren .or kids)

variable {gs : List (List Rule)} {t u : RuleSet}

theorem simplify_ofRules (rs : List Rule) : (ofRules rs).toNode.simplify = conjunction rs := by
  rw [ofRules, toNode, ofChildren, Node.simplify, simplifyAll_rules]
  rcases rs with _ | ⟨r, _ | ⟨r', rs⟩⟩ <;> rfl

theorem merge_and_ofRules (rs rs' : List Rule) :
    merge .and (ofRules rs) (ofRules rs') = ofRules (rs ++ rs') := by
  simp [merge, ofRules, ofChildren, Header.isPlain]

theorem merge_or_ofRules (rs rs' : List Rule) : merge .or (ofRules rs) (ofRules rs') =
    ofChildren .or (if rs.length = 1 ∧ rs'.length = 1 then rs.map .rule ++ rs'.map .rule
      else [(ofRules rs).toNode, (ofRules rs').toNode]) := by
  split <;> simp_all [merge, ofRules, ofChildren, Header.isPlain]

theorem merge_or_ofChildren (kids : List Node) (rs : List Rule) :
    merge .or (ofChildren .or kids) (ofRules rs) = ofChildren .or
      (kids ++ if rs.length = 1 then rs.map .rule else [(ofRules rs).toNode]) := by
  split <;> simp_all [merge, ofRules, ofChildren, Header.isPlain]

/-- A group of rules that is joined to others becomes one more child. -/
theorem Joined.merge (h : Joined gs t) (rs : List Rule) :
    Joined (gs ++ [rs]) (RuleSet.merge .or t (ofRules rs)) := by
  cases h with
  | one rs' =>
    rw [merge_or_ofRules]
    refine .several (by simp) ?_
    split
    next h => simp [simplifyAll_append, simplifyAll_rule h.1, simplifyAll_rule h.2]
    next => simp [simplifyAll, simplify_ofRules]
  | @several _ kids hlength hkids =>
    rw [merge_or_ofChildren]
    refine .several (by simp; omega) ?_
    rw [simplifyAll_append, hkids, List.map_append]
    split
    next h => simp [simplifyAll_rule h]
    next => simp [simplifyAll, simplify_ofRules]

/-- Simplifying leaves the rules and the groups of several rules. -/
theorem Joined.simplify (h : Joined gs t) : t.simplify = disjunction gs := by
  cases h with
  | one rs => simp [RuleSet.simplify, ofRules, ofChildren, simplifyAll_rules, disjunction]
  | several hlength hkids =>
    simp only [RuleSet.simplify, ofChildren, hkids, disjunction_of_length hlength]

theorem foldl_merge_and (rs rs' : List Rule) :
    rs'.foldl (fun t r => merge .and t (ofRules [r])) (ofRules rs) = ofRules (rs ++ rs') := by
  induction rs' generalizing rs with
  | nil => simp
  | cons r rs' ih => simp [merge_and_ofRules, ih]

/-- Groups of rules are joined one after another. -/
theorem Joined.foldl (h : Joined gs t) (gs' : List (List Rule)) :
    Joined (gs ++ gs') (gs'.foldl (fun t rs => RuleSet.merge .or t (ofRules rs)) t) := by
  induction gs' generalizing gs t with
  | nil => rwa [List.append_nil]
  | cons rs gs' ih =>
    rw [List.append_cons]
    exact ih (h.merge rs)

theorem isPlain_of_mem_disjunction (hu : u ∈ (disjunction gs).rulesets) : u.isPlain = true := by
  unfold disjunction at hu
  split at hu
  next rs =>
    rw [RuleSet.rulesets, toNode, Node.rulesets, ofRules, ofChildren, rulesetsOfAll_rules,
      List.mem_singleton] at hu
    rw [hu]
    rfl
  next =>
    obtain rfl | hu := List.mem_cons.1 hu
    · rfl
    · obtain ⟨n, hn, hu⟩ := exists_of_mem_rulesetsOfAll hu
      obtain ⟨rs, _, rfl⟩ := List.mem_map.1 hn
      exact isPlain_of_mem_conjunction hu

end RuleSet

namespace Query
open RuleSet

/-- A clause together with tokens that spell it. -/
structure SpelledClause where
  tokens : List Token
  clause : Clause
  spells : Clause.Spells tokens clause

/-- The token between operands under a condition. -/
def signToken : Condition → Token
  | .and => ⟨.symbol, "&"⟩
  | .or => ⟨.symbol, "|"⟩

theorem isSymbol_signToken (c : Condition) : (signToken c).isSymbol (joinSign c) = true := by
  cases c <;> decide

/-- Operands with the sign of a condition between each two of them. -/
def joinedTokens (c : Condition) (tss : List (List Token)) : List Token :=
  [signToken c].intercalate tss

/-- Groups of clauses, the clauses of a group joined by `&` and the groups by `|`. -/
def flatTokens (gs : List (List SpelledClause)) : List Token :=
  joinedTokens .or (gs.map fun g => joinedTokens .and (g.map fun c => c.tokens))

theorem joinedTokens_concat (c : Condition) (tss : List (List Token)) (ts us : List Token) :
    joinedTokens c (ts :: tss ++ [us]) = joinedTokens c (ts :: tss) ++ signToken c :: us := by
  unfold joinedTokens
  induction tss generalizing ts with
  | nil => simp [List.intercalate_cons_cons]
  | cons vs tss ih =>
    rw [List.cons_append, List.intercalate_cons_of_ne_nil (by simp), ih,
      List.intercalate_cons_cons, List.append_assoc _ _ (signToken c :: us)]

/-- The tokens spell an expression in which nothing nests, and `t` is its tree. -/
def Yields (s : Schema) (level : Level) (ts : List Token) (t : RuleSet) : Prop :=
  ∃ e, Expr.Spells level ts e ∧ e.depth = 0 ∧ e.toTree s = t

section Yielding

variable {s : Schema} {c : Condition} {ts us : List Token} {l r : RuleSet}

theorem Yields.join (hl : Yields s (.chain c) ts l) (hr : Yields s (.joined c) us r) :
    Yields s (.chain c) (ts ++ signToken c :: us) (merge c l r) := by
  obtain ⟨e, hspells, hdepth, rfl⟩ := hl
  obtain ⟨e', hspells', hdepth', rfl⟩ := hr
  exact ⟨.join c e e', hspells.join (isSymbol_signToken c) hspells', by
    rw [Expr.depth, hdepth, hdepth', Nat.max_self], rfl⟩

/-- The tree of joined operands is that of the first one, with the other ones merged into it from
left to right. -/
theorem Yields.chain {α : Type} {tokens : α → List Token} {tree : α → RuleSet} {x : α}
    {xs : List α} (hxs : ∀ y ∈ x :: xs, Yields s (.joined c) (tokens y) (tree y)) :
    Yields s (.chain c) (joinedTokens c ((x :: xs).map tokens))
      (xs.foldl (fun t y => merge c t (tree y)) (tree x)) := by
  induction xs using List.reverseRecOn with
  | nil =>
    obtain ⟨e, hspells, he⟩ := hxs x List.mem_cons_self
    exact ⟨e, by simpa [joinedTokens] using Expr.Spells.single hspells, he⟩
  | append_singleton xs y ih =>
    rw [← List.cons_append] at hxs ⊢
    obtain ⟨hinit, hlast⟩ := List.forall_mem_append.1 hxs
    rw [List.foldl_append, List.map_append, List.map_cons, List.map_singleton, joinedTokens_concat]
    exact (ih hinit).join (hlast y List.mem_cons_self)

theorem SpelledClause.yields (s : Schema) (c : SpelledClause) :
    Yields s .operand c.tokens (ofRules [c.clause.toRule s]) :=
  ⟨.clause c.clause, .clause c.spells, rfl, rfl⟩

theorem yields_conjunction (s : Schema) {g : List SpelledClause} (hg : g ≠ []) :
    Yields s (.chain .and) (joinedTokens .and (g.map fun c => c.tokens))
      (ofRules (g.map fun c => c.clause.toRule s)) := by
  obtain ⟨c, g, rfl⟩ := List.exists_cons_of_ne_nil hg
  have hfold := foldl_merge_and [c.clause.toRule s] (g.map fun d => d.clause.toRule s)
  rw [List.foldl_map] at hfold
  exact hfold ▸ Yields.chain (c := .and) fun d _ => d.yields s

theorem exists_yields_disjunction (s : Schema) {gs : List (List SpelledClause)} (hgs : gs ≠ [])
    (hne : ∀ g ∈ gs, g ≠ []) : ∃ t, Yields s (.chain .or) (flatTokens gs) t ∧
      Joined (gs.map fun g => g.map fun c => c.clause.toRule s) t := by
  obtain ⟨g, gs, rfl⟩ := List.exists_cons_of_ne_nil hgs
  have hfold := (Joined.one (g.map fun c => c.clause.toRule s)).foldl
    (gs.map fun g => g.map fun c => c.clause.toRule s)
  rw [List.foldl_map] at hfold
  exact ⟨_, Yields.chain (c := .or) fun g' hg' => yields_conjunction s (hne g' hg'), hfold⟩

end Yielding

/-- A query without groups, negations and references is read to its end, and its tree is flat. -/
theorem parse_flat (s : Schema) {text : String} {gs : List (List SpelledClause)} (hgs : gs ≠ [])
    (hne : ∀ g ∈ gs, g ≠ []) (htext : tokenize text.toList = flatTokens gs) :
    ∃ p, (parse s text).value = .ok p ∧ p.isComplete = true ∧
      p.tree = disjunction (gs.map fun g => g.map fun c => c.clause.toRule s) ∧
      ∀ u ∈ p.tree.rulesets, u.negated = false ∧ u.name = none ∧ u.parenthesized = false := by
  obtain ⟨_, ⟨e, hspells, hdepth, rfl⟩, hjoined⟩ := exists_yields_disjunction s hgs hne
  rw [← htext] at hspells
  have hread := (parseTokens_iff (s := s)).2 ⟨e, hspells, hdepth ▸ Nat.zero_le _, rfl⟩
  refine ⟨_, hread.1, hread.2, hjoined.simplify, fun u hu => ?_⟩
  rw [hjoined.simplify] at hu
  exact Header.isPlain_iff.1 (isPlain_of_mem_disjunction hu)

/-- Groups of two clauses, of one, of one and of two: `a=x & b IN (c, d) | e | f | g & h`. -/
theorem parse_flat_mixed :
    let s : Schema := { field? := fun _ => none }
    let equal : SpelledClause := ⟨[⟨.word, "a"⟩, ⟨.operator, "="⟩, ⟨.word, "x"⟩], _,
      .comparison (by decide +kernel) (by decide)
        (.operand (by decide +kernel) (.literal (by decide)))⟩
    let list : SpelledClause := ⟨[⟨.word, "b"⟩, ⟨.word, "IN"⟩, ⟨.symbol, "("⟩, ⟨.word, "c"⟩,
      ⟨.symbol, ","⟩, ⟨.word, "d"⟩, ⟨.symbol, ")"⟩], _,
      .comparison (by decide +kernel) (by decide +kernel) (.operand (by decide +kernel)
        (.list (by decide +kernel) (by decide) (by decide)
          (.comma (by decide) (by decide) (.cons (by decide) .nil)) (by simp)))⟩
    let e : SpelledClause := ⟨[⟨.word, "e"⟩], _, .search (by decide +kernel)⟩
    let f : SpelledClause := ⟨[⟨.word, "f"⟩], _, .search (by decide +kernel)⟩
    let g : SpelledClause := ⟨[⟨.word, "g"⟩], _, .search (by decide +kernel)⟩
    let h : SpelledClause := ⟨[⟨.word, "h"⟩], _, .search (by decide +kernel)⟩
    let gs := [[equal, list], [e], [f], [g, h]]
    ∃ p, (parse s "a=x & b IN (c, d) | e | f | g & h").value = .ok p ∧ p.isComplete = true ∧
      p.tree = disjunction (gs.map fun g => g.map fun c => c.clause.toRule s) ∧
      ∀ u ∈ p.tree.rulesets, u.negated = false ∧ u.name = none ∧ u.parenthesized = false := by
  intro s equal list e f g h gs
  exact parse_flat s (by simp [gs]) (by simp [gs]) (by decide +kernel)

end Query

end BoolQuery
