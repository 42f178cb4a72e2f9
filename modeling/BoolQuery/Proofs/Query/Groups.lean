import BoolQuery.Proofs.Query.Parentheses
import BoolQuery.Proofs.Query.TidyTrees
import BoolQuery.Proofs.RuleSet.Parts

/-! Groups in a query and parenthesized rulesets in its tree. The parentheses of a group mark the
root of what they enclose. A negation before the group, the operands around it and simplifying leave
that mark alone, so each group is found again in the tree, and each mark goes back to a group. -/

namespace BoolQuery.Query
open Node RuleSet

/-- The ruleset is that of a group around the tokens `inside`, which may be negated. -/
def Encloses (s : Schema) (inside : List Token) (u : RuleSet) : Prop :=
  ∃ e, Expr.Spells (.chain .or) inside e ∧
    ∃ b, u = { e.toTree s with negated := b, parenthesized := true }

/-- The ruleset is parenthesized and has the leaves of the expression that the tokens `inside`
spell; indeed it is the simplified tree of that expression, which may be negated. -/
def StandsFor (s : Schema) (inside : List Token) (u : RuleSet) : Prop :=
  u.parenthesized = true ∧ ∃ e, Expr.Spells (.chain .or) inside e ∧ u.leaves = e.leaves s ∧
    u = { (e.toTree s).simplify with negated := u.negated, parenthesized := true }

/-- Each of the rulesets has a group of its own among the tokens, and `R` holds of what the group
encloses and of the ruleset. The groups open in the order of the rulesets, behind `n` tokens at
least. -/
inductive Arise (R : List Token → RuleSet → Prop) (ts : List Token) : (n : Nat) →
    List RuleSet → Prop
  | nil {n} : Arise R ts n []
  | cons {n before inside u us} : n ≤ before.length → HasGroup ts before inside → R inside u →
      Arise R ts (before.length + 1) us → Arise R ts n (u :: us)

/-- The parenthesized ones of some rulesets. -/
def grouped (us : List RuleSet) : List RuleSet := us.filter fun u => u.parenthesized

section Rulesets

variable {c : Condition} {l r t u : RuleSet}

theorem isPlain_of_parenthesized (hu : u.parenthesized = true) : u.isPlain = false := by
  simp [Header.isPlain, hu]

theorem mem_grouped {us : List RuleSet} :
    u ∈ grouped us ↔ u ∈ us ∧ u.parenthesized = true := List.mem_filter

theorem grouped_append (us vs : List RuleSet) : grouped (us ++ vs) = grouped us ++ grouped vs :=
  List.filter_append _ _

/-- A parenthesized ruleset is a marked one. -/
theorem grouped_marked (us : List RuleSet) : grouped (marked us) = grouped us := by
  rw [grouped, marked, List.filter_filter]
  refine List.filter_congr fun u _ => ?_
  cases hu : u.parenthesized with
  | false => rfl
  | true => simp [isPlain_of_parenthesized hu]

theorem grouped_rulesets_simplify (t : RuleSet) :
    grouped t.simplify.rulesets = (grouped t.rulesets).map RuleSet.simplify := by
  rw [← grouped_marked, RuleSet.marked_rulesets_simplify, ← grouped_marked t.rulesets, grouped,
    grouped, List.filter_map]
  rfl

theorem grouped_rulesets_merge (c : Condition) (l r : RuleSet) :
    grouped (merge c l r).rulesets = grouped l.rulesets ++ grouped r.rulesets := by
  rw [← grouped_marked, (merges_merge c l r).marked_rulesets, grouped_append, grouped_marked,
    grouped_marked]

theorem grouped_rulesets_of_parenthesized (hu : u.parenthesized = true) :
    grouped u.rulesets = u :: grouped (rulesetsOfAll u.children) :=
  List.filter_cons_of_pos hu

theorem grouped_rulesets_of_not_parenthesized (hu : u.parenthesized = false) :
    grouped u.rulesets = grouped (rulesetsOfAll u.children) :=
  List.filter_cons_of_neg (by simp [hu])

end Rulesets

section Enclosing

variable {s : Schema} {inside : List Token} {u : RuleSet}

theorem Encloses.parenthesized (h : Encloses s inside u) : u.parenthesized = true := by
  obtain ⟨_, _, _, rfl⟩ := h
  rfl

theorem Encloses.negate (h : Encloses s inside u) (b : Bool) :
    Encloses s inside { u with negated := b } := by
  obtain ⟨e, he, _, rfl⟩ := h
  exact ⟨e, he, b, rfl⟩

theorem Encloses.parenthesize (h : Encloses s inside u) :
    Encloses s inside { u with parenthesized := true } := by
  obtain ⟨e, he, b, rfl⟩ := h
  exact ⟨e, he, b, rfl⟩

/-- What a group has in a tree it still has when only the header of the root changes, to one that
suits the group as well. -/
theorem Encloses.exists_of_children {t t' : RuleSet} (h : Encloses s inside u)
    (hu : u ∈ grouped t.rulesets) (hkids : t'.children = t.children)
    (hroot : Encloses s inside t → Encloses s inside t') :
    ∃ v ∈ grouped t'.rulesets, Encloses s inside v := by
  obtain rfl | hu := List.mem_cons.1 (mem_grouped.1 hu).1
  · exact ⟨t', mem_grouped.2 ⟨List.mem_cons_self, (hroot h).parenthesized⟩, hroot h⟩
  · exact ⟨u, mem_grouped.2 ⟨List.mem_cons_of_mem _ (hkids ▸ hu), h.parenthesized⟩, h⟩

/-- Simplifying a ruleset keeps its header, so the marks may as well be set on the simplified
tree. -/
theorem Encloses.simplify (h : Encloses s inside u) : StandsFor s inside u.simplify := by
  obtain ⟨e, he, b, rfl⟩ := h
  exact ⟨rfl, e, he, Expr.leaves_simplify_toTree s e, rfl⟩

end Enclosing

section Arising

variable {R R' : List Token → RuleSet → Prop} {ts ts' : List Token} {n : Nat} {u v : RuleSet}
  {us us' : List RuleSet}

theorem HasGroup.length_lt {before inside : List Token} (h : HasGroup ts before inside) :
    before.length < ts.length := by
  obtain ⟨l, r, after, rfl, _⟩ := h
  simp

theorem Arise.mono {m : Nat} (h : Arise R ts n us) (hm : m ≤ n) : Arise R ts m us := by
  cases h with
  | nil => exact .nil
  | cons hn hgroup hu hus => exact .cons (hm.trans hn) hgroup hu hus

theorem Arise.map {f : RuleSet → RuleSet} (hf : ∀ inside u, R inside u → R' inside (f u))
    (h : Arise R ts n us) : Arise R' ts n (us.map f) := by
  induction h with
  | nil => exact .nil
  | cons hn hgroup hu _ ih => exact .cons hn hgroup (hf _ _ hu) ih

theorem Arise.append_right (h : Arise R ts n us) (ts' : List Token) :
    Arise R (ts ++ ts') n us := by
  induction h with
  | nil => exact .nil
  | cons hn hgroup hu _ ih => exact .cons hn (hgroup.append_right ts') hu ih

theorem Arise.append_left (h : Arise R ts n us) {before : List Token} (hdue : Due before) :
    Arise R (before ++ ts) (before.length + n) us := by
  induction h with
  | nil => exact .nil
  | cons hn hgroup hu _ ih =>
    refine .cons ?_ (hgroup.append_left hdue) hu (ih.mono ?_) <;> simp only [List.length_append] <;>
      omega

/-- The rulesets of two runs of tokens, where an operand is due behind the first run. -/
theorem Arise.append (h : Arise R ts n us) (hn : n ≤ ts.length) (hdue : Due ts)
    (h' : Arise R ts' 0 us') : Arise R (ts ++ ts') n (us ++ us') := by
  induction h with
  | nil => exact (h'.append_left hdue).mono hn
  | cons hle hgroup hu _ ih =>
    exact .cons hle (hgroup.append_right ts') hu (ih hgroup.length_lt)

/-- Parentheses around tokens open before those among the tokens. -/
theorem Arise.enclose {l r : Token} (h : Arise R ts 0 us) (hl : l.isSymbol '(' = true)
    (hr : r.isSymbol ')' = true) (hts : Balanced ts) (hu : R ts u) :
    Arise R (l :: (ts ++ [r])) 0 (u :: us) :=
  have hinner : Arise R (l :: (ts ++ [r])) 1 us :=
    (h.append_right [r]).append_left (due_symbol hl)
  .cons (Nat.zero_le _) (hasGroup_enclosed hl hr hts) hu hinner

/-- Below the root of a tree stand those of its parenthesized rulesets that are not the root. -/
theorem Arise.children (h : Arise R ts n (grouped u.rulesets)) :
    Arise R ts n (grouped (rulesetsOfAll u.children)) := by
  cases hp : u.parenthesized with
  | true =>
    rw [grouped_rulesets_of_parenthesized hp] at h
    cases h with
    | cons hn _ _ hus => exact hus.mono (Nat.le_succ_of_le hn)
  | false => rwa [grouped_rulesets_of_not_parenthesized hp] at h

/-- The root of a tree may change in what does not matter to its group. -/
theorem Arise.of_root (h : Arise R ts n (grouped u.rulesets)) (hkids : v.children = u.children)
    (hparens : v.parenthesized = u.parenthesized) (hroot : ∀ inside, R inside u → R inside v) :
    Arise R ts n (grouped v.rulesets) := by
  cases hp : u.parenthesized with
  | true =>
    rw [grouped_rulesets_of_parenthesized hp] at h
    rw [grouped_rulesets_of_parenthesized (hparens.trans hp), hkids]
    cases h with
    | cons hn hgroup hu hus => exact .cons hn hgroup (hroot _ hu) hus
  | false => rwa [grouped_rulesets_of_not_parenthesized (hparens.trans hp), hkids,
      ← grouped_rulesets_of_not_parenthesized hp]

end Arising

namespace Expr

variable {s : Schema} {level : Level} {ts before : List Token} {e : Expr}

/-- Each group among the tokens of an expression is found in its tree. -/
theorem Spells.exists_encloses (hs : s.store = none) (h : Spells level ts e)
    (hopens : OpensGroup ts before) : ∃ inside, HasGroup ts before inside ∧
      ∃ u ∈ grouped (e.toTree s).rulesets, Encloses s inside u := by
  induction h generalizing before with
  | clause h => exact absurd hopens h.not_opensGroup
  | reference ht =>
    have hliteral := Token.isLiteral_of_isRuleSetName ht
    exact absurd hopens (not_opensGroup_singleton (Token.isSymbol_of_isLiteral hliteral))
  | not ht _ ih =>
    obtain ⟨before', rfl, hopens'⟩ := hopens.tail (Token.isSymbol_ne ht (by decide))
    obtain ⟨inside, hgroup, u, hu, henc⟩ := ih hopens'
    refine ⟨inside, hgroup.append_left (due_symbol ht), ?_⟩
    rw [toTree_not hs]
    exact henc.exists_of_children hu rfl fun hroot => hroot.negate _
  | @group l r ts e hl hr hspells ih =>
    obtain ⟨rfl, _⟩ | ⟨before', rfl, hopens'⟩ := hopens.of_cons
    · exact ⟨ts, hasGroup_enclosed hl hr hspells.balanced, _,
        mem_grouped.2 ⟨List.mem_cons_self, rfl⟩, e, hspells, _, rfl⟩
    · have hbefore := hopens'.of_append.resolve_right fun ⟨_, _, hright⟩ =>
        not_opensGroup_singleton (Token.isSymbol_ne hr (by decide)) hright
      obtain ⟨inside, hgroup, u, hu, henc⟩ := ih hbefore
      exact ⟨inside, (hgroup.append_right [r]).append_left (due_symbol hl),
        henc.exists_of_children hu rfl Encloses.parenthesize⟩
  | single _ ih => exact ih hopens
  | @join c t ts us l r _ ht _ ihl ihr =>
    rw [toTree, grouped_rulesets_merge]
    obtain hleft | ⟨before', rfl, hright⟩ := hopens.of_append
    · obtain ⟨inside, hgroup, u, hu, henc⟩ := ihl hleft
      exact ⟨inside, hgroup.append_right _, u, List.mem_append_left _ hu, henc⟩
    · obtain ⟨before'', rfl, hright'⟩ := hright.tail (not_parenthesis_of_joinSign ht).1
      obtain ⟨inside, hgroup, u, hu, henc⟩ := ihr hright'
      have hjoined := hgroup.append_left (due_concat ts ht)
      rw [← List.append_cons, ← List.append_cons] at hjoined
      exact ⟨inside, hjoined, u, List.mem_append_right _ hu, henc⟩

/-- Each parenthesized ruleset in the tree of an expression goes back to a group among its tokens,
and no two to the same one. -/
theorem Spells.arise (hs : s.store = none) (h : Spells level ts e) :
    Arise (Encloses s) ts 0 (grouped (e.toTree s).rulesets) := by
  induction h with
  | clause => exact .nil
  | @reference t _ =>
    rw [toTree_reference hs]
    exact .nil
  | not ht _ ih =>
    have hinner := ih.append_left (due_symbol ht)
    rw [toTree_not hs]
    exact (hinner.mono (Nat.zero_le _)).of_root rfl rfl fun _ hroot => hroot.negate _
  | group hl hr hspells ih =>
    exact ih.children.enclose hl hr hspells.balanced ⟨_, hspells, _, rfl⟩
  | single _ ih => exact ih
  | @join c t ts us l r _ ht _ ihl ihr =>
    rw [toTree, grouped_rulesets_merge, List.append_cons]
    exact (ihl.append_right [t]).append (Nat.zero_le _) (due_concat ts ht) ihr

end Expr

/-- Without stored rulesets, the groups of a query that is read to its end are those of its tree.
What a group encloses is the leaves of a parenthesized ruleset; and the parenthesized rulesets, each
before those inside it, go back to groups that open one behind the other. -/
theorem parseTokens_groups {s : Schema} (hs : s.store = none) {ts : List Token} {p : Parsed}
    (h : (parseTokens s ts).value = .ok p) (hc : p.isComplete = true) :
    (∀ before inside, HasGroup ts before inside → ∃ u ∈ p.tree.rulesets, StandsFor s inside u) ∧
      Arise (StandsFor s) ts 0 (grouped p.tree.rulesets) := by
  obtain ⟨e, hspells, _, rfl⟩ := parseTokens_iff.1 ⟨h, hc⟩
  have hgrouped := grouped_rulesets_simplify (e.toTree s)
  constructor
  · intro before inside hgroup
    obtain ⟨inside', hgroup', u, hu, henc⟩ := hspells.exists_encloses hs hgroup.opensGroup
    obtain rfl := hgroup.unique hgroup'
    have hmem := List.mem_map_of_mem (f := RuleSet.simplify) hu
    rw [← hgrouped] at hmem
    exact ⟨_, (mem_grouped.1 hmem).1, henc.simplify⟩
  · have harise := (hspells.arise hs).map fun _ _ henc => Encloses.simplify henc
    rwa [← hgrouped] at harise

/-- A group inside a negated one, and parentheses of a list: `!(a | (BAD & c)) & d IN (e)`. -/
theorem parseTokens_groups_nested :
    let s : Schema := { field? := fun _ => none }
    let inside : List Token := [⟨.word, "BAD"⟩, ⟨.symbol, "&"⟩, ⟨.word, "c"⟩]
    let ts : List Token := [⟨.symbol, "!"⟩, ⟨.symbol, "("⟩, ⟨.word, "a"⟩, ⟨.symbol, "|"⟩,
      ⟨.symbol, "("⟩, ⟨.word, "BAD"⟩, ⟨.symbol, "&"⟩, ⟨.word, "c"⟩, ⟨.symbol, ")"⟩, ⟨.symbol, ")"⟩,
      ⟨.symbol, "&"⟩, ⟨.word, "d"⟩, ⟨.word, "IN"⟩, ⟨.symbol, "("⟩, ⟨.word, "e"⟩, ⟨.symbol, ")"⟩]
    ∃ p, (parseTokens s ts).value = .ok p ∧ p.isComplete = true ∧
      (∃ u ∈ p.tree.rulesets, StandsFor s inside u) ∧
        Arise (StandsFor s) ts 0 (grouped p.tree.rulesets) := by
  intro s inside ts
  have ha : Expr.Spells .operand [⟨.word, "a"⟩] _ := .clause (.search (by decide +kernel))
  have hbad : Expr.Spells .operand [⟨.word, "BAD"⟩] _ := .reference (by decide +kernel)
  have hc : Expr.Spells .operand [⟨.word, "c"⟩] _ := .clause (.search (by decide +kernel))
  have hlist : Clause.SpellsOperand "d" (⟨.word, "IN"⟩ : Token).operatorName
      [⟨.symbol, "("⟩, ⟨.word, "e"⟩, ⟨.symbol, ")"⟩] _ :=
    .list (by decide +kernel) (by decide) (by decide) (.cons (by decide) .nil) (by decide)
  have hd : Expr.Spells .operand
      [⟨.word, "d"⟩, ⟨.word, "IN"⟩, ⟨.symbol, "("⟩, ⟨.word, "e"⟩, ⟨.symbol, ")"⟩] _ :=
    .clause (.comparison (by decide +kernel) (by decide +kernel)
      (.operand (by decide +kernel) hlist))
  have hinside : Expr.Spells (.chain .and) inside _ := .join (hbad.ofOperand .and) (by decide) hc
  have hgroup : Expr.Spells .operand ((ts.drop 4).take 5) _ :=
    .group (by decide) (by decide) (.single hinside)
  have hor : Expr.Spells (.chain .or) ((ts.drop 2).take 7) _ :=
    .join (ha.ofOperand .or) (by decide) (hgroup.ofOperand .and)
  have hnot : Expr.Spells .operand (ts.take 10) _ :=
    .not (by decide) (.group (by decide) (by decide) hor)
  have hand : Expr.Spells (.chain .and) ts _ := .join (hnot.ofOperand .and) (by decide) hd
  obtain ⟨h, hcomplete⟩ := parseTokens_iff.2 ⟨_, .single hand, by decide, rfl⟩
  obtain ⟨hgroups, harise⟩ := parseTokens_groups (s := s) rfl h hcomplete
  have hdue : Due (ts.take 4) := due_concat (ts.take 3) (by decide : Token.isSymbol '|' ⟨.symbol, "|"⟩ = true)
  exact ⟨_, h, hcomplete, hgroups (ts.take 4) inside
    ⟨_, _, _, rfl, by decide, by decide, hinside.balanced, hdue⟩, harise⟩

end BoolQuery.Query
