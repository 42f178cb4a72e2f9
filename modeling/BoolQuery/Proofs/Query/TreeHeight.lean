import BoolQuery.Proofs.Query.TidyTrees

/-! How many rulesets a tree that was read nests. Each place of a query that opens a negation or a
group is good for two of them, one that joins by `or` and one that joins by `and`. Besides, an
operand with a mark is never taken into the ruleset on its left: both go into a new one, so a
chain of such operands nests as many rulesets as it is long. -/

namespace BoolQuery

namespace Node

mutual

/-- How many rulesets are nested on the longest way down from a node. -/
def height : Node → Nat
  | rule _ => 0
  | group _ kids => heightOfAll kids + 1

def heightOfAll : List Node → Nat
  | [] => 0
  | n :: ns => max n.height (heightOfAll ns)

end

theorem heightOfAll_singleton (n : Node) : heightOfAll [n] = n.height := by
  simp [heightOfAll]

theorem heightOfAll_simplifyAll_append (ns ms : List Node) :
    heightOfAll (simplifyAll (ns ++ ms)) =
      max (heightOfAll (simplifyAll ns)) (heightOfAll (simplifyAll ms)) := by
  induction ns with
  | nil => simp [simplifyAll, heightOfAll]
  | cons n ns ih => simp [simplifyAll, heightOfAll, ih, Nat.max_assoc]

end Node

namespace Condition

/-- Whether more than an operand can be joined under a condition without a mark. -/
def looseness : Condition → Nat
  | and => 0
  | or => 1

end Condition

namespace RuleSet
open Node Query

def height (t : RuleSet) : Nat := t.toNode.height

/-- How many rulesets a tree nests below its root, once it is simplified. -/
def innerHeight (t : RuleSet) : Nat := heightOfAll (simplifyAll t.children)

/-- How many rulesets a tree adds to the way down as a child, where a wrapper gives way to what
it holds. -/
def wholeHeight (t : RuleSet) : Nat := t.toNode.simplify.height

variable {c : Condition} {l r t : RuleSet} {b b' bl br : Nat}

theorem height_simplify (t : RuleSet) : t.simplify.height = t.innerHeight + 1 := rfl

theorem wholeHeight_cases (t : RuleSet) : t.wholeHeight = t.innerHeight + 1 ∨
    (t.wholeHeight = t.innerHeight ∧ t.isPlain = true ∧ t.children.length = 1) := by
  unfold wholeHeight innerHeight
  rw [toNode, Node.simplify]
  obtain ⟨only, honly, hp, hu⟩ | hu := unwrap_cases t.toHeader (simplifyAll t.children)
  · have hlength := length_simplifyAll t.children
    rw [honly] at hlength
    rw [hu, honly, heightOfAll_singleton]
    exact .inr ⟨rfl, (Header.isPlainAnd_iff.1 hp).1, hlength.symm⟩
  · rw [hu]
    exact .inl rfl

theorem innerHeight_le (t : RuleSet) : t.innerHeight ≤ t.wholeHeight := by
  rcases t.wholeHeight_cases with h | ⟨h, _⟩ <;> omega

theorem wholeHeight_le (t : RuleSet) : t.wholeHeight ≤ t.innerHeight + 1 := by
  rcases t.wholeHeight_cases with h | ⟨h, _⟩ <;> omega

theorem wholeHeight_of_marked (h : t.isPlain = false) : t.wholeHeight = t.innerHeight + 1 := by
  rcases t.wholeHeight_cases with hw | ⟨_, hp, _⟩
  · exact hw
  · rw [h] at hp
    cases hp

theorem innerHeight_append (h : Header) (ns ms : List Node) :
    innerHeight ⟨h, ns ++ ms⟩ = max (innerHeight ⟨h, ns⟩) (innerHeight ⟨h, ms⟩) :=
  heightOfAll_simplifyAll_append ns ms

theorem innerHeight_singleton (h : Header) (t : RuleSet) :
    innerHeight ⟨h, [t.toNode]⟩ = t.wholeHeight := by
  simp [innerHeight, wholeHeight, simplifyAll, heightOfAll]

theorem innerHeight_pair (h : Header) (l r : RuleSet) :
    innerHeight ⟨h, [l.toNode, r.toNode]⟩ = max l.wholeHeight r.wholeHeight := by
  simp [innerHeight, wholeHeight, simplifyAll, heightOfAll]

/-- Joining loses no ruleset. -/
theorem Merges.innerHeight_le (h : Merges c l r t) :
    max l.innerHeight r.innerHeight ≤ t.innerHeight := by
  have hl := l.innerHeight_le
  have hr := r.innerHeight_le
  cases h with
  | spliced => exact Nat.le_of_eq (innerHeight_append _ _ _).symm
  | grafted =>
    rw [innerHeight_append, innerHeight_singleton]
    exact Nat.max_le.2 ⟨Nat.le_max_left _ _, Nat.le_trans hr (Nat.le_max_right _ _)⟩
  | unwrapped => exact Nat.le_of_eq (innerHeight_append _ _ _).symm
  | paired =>
    rw [ofChildren, innerHeight_pair]
    omega

theorem merge_of_marked (h : r.isPlain = false) :
    merge c l r = ofChildren c [l.toNode, r.toNode] := by
  simp [merge, h]

/-- The left operand nests one more ruleset than what it holds, unless its own ruleset goes on. -/
theorem innerHeight_merge_le (c : Condition) (l r : RuleSet) : (merge c l r).innerHeight ≤
    max (if l.isPlain && r.isPlain && l.condition == c then l.innerHeight else l.wholeHeight)
      r.wholeHeight := by
  have hl := l.innerHeight_le
  have hr := r.innerHeight_le
  unfold merge
  split
  · split
    · have heq : innerHeight { l with children := l.children ++ r.children } =
          max l.innerHeight r.innerHeight := innerHeight_append _ _ _
      omega
    · have heq : innerHeight { l with children := l.children ++ [r.toNode] } =
          max l.innerHeight r.wholeHeight := by
        rw [innerHeight_append, innerHeight_singleton]
      omega
  split
  · have heq : innerHeight (ofChildren .or (l.children ++ r.children)) =
        max l.innerHeight r.innerHeight := innerHeight_append _ _ _
    omega
  · rw [ofChildren, innerHeight_pair]

/-- The tree of an operand nests `b` rulesets at most. -/
structure LowAlone (b : Nat) (t : RuleSet) : Prop where
  inner : t.innerHeight ≤ b
  whole : t.wholeHeight ≤ b

/-- The tree of joined operands nests `b` rulesets at most below its root, or one more if the
operands may be joined ones themselves. -/
structure LowJoined (c : Condition) (b : Nat) (t : RuleSet) : Prop where
  joins : t.condition = c
  plain : t.isPlain = true
  inner : t.innerHeight ≤ b + c.looseness

/-- What holds of the tree of an expression of a level. -/
def Low (level : Level) (b : Nat) (t : RuleSet) : Prop :=
  t.LowAlone b ∨ ∃ c ∈ level.conditions, t.LowJoined c b

theorem Low.inner (h : t.Low (.chain c) b) : t.innerHeight ≤ b + c.looseness := by
  obtain h | ⟨c', hmem, h⟩ := h
  · exact Nat.le_trans h.inner (Nat.le_add_right _ _)
  · refine Nat.le_trans h.inner (Nat.add_le_add_left ?_ _)
    cases c with
    | and => exact Nat.le_of_eq (congrArg Condition.looseness (List.mem_singleton.1 hmem))
    | or => cases c' <;> decide

/-- Only the ruleset that goes on with its operands is one of its own. -/
theorem Low.whole (h : t.Low (.chain c) b) :
    t.wholeHeight ≤ b + c.looseness ∨ (t.isPlain = true ∧ t.condition = c) := by
  obtain h | ⟨c', hmem, h⟩ := h
  · exact .inl (Nat.le_trans h.whole (Nat.le_add_right _ _))
  · by_cases hc : c' = c
    · exact .inr ⟨h.plain, hc ▸ h.joins⟩
    · obtain ⟨rfl, rfl⟩ : c = .or ∧ c' = .and := by
        cases c <;> cases c' <;> simp_all [Level.conditions]
      exact .inl (Nat.le_trans t.wholeHeight_le (Nat.succ_le_succ h.inner))

/-- An operand of a chain is good for one ruleset less than the chain. -/
theorem Low.wholeOperand (h : t.Low (.joined c) b) : t.wholeHeight ≤ b + c.looseness := by
  cases c with
  | and =>
    obtain h | ⟨_, hmem, _⟩ := h
    · exact h.whole
    · cases hmem
  | or =>
    obtain h | ⟨c', hmem, h⟩ := h
    · exact Nat.le_trans h.whole (Nat.le_add_right _ _)
    · obtain rfl := List.mem_singleton.1 hmem
      exact Nat.le_trans t.wholeHeight_le (Nat.succ_le_succ h.inner)

/-- A marked operand on the right costs a ruleset, whatever it is joined to. -/
theorem lowJoined_merge (hl : l.Low (.chain c) bl) (hr : r.Low (.joined c) br) :
    (merge c l r).LowJoined c (max bl br + if r.isPlain then 0 else 1) := by
  have hmerges := merges_merge c l r
  refine ⟨hmerges.condition_eq, hmerges.isPlain, ?_⟩
  have hle := innerHeight_merge_le c l r
  have hinner := hl.inner
  have hwhole := l.wholeHeight_le
  have hright := hr.wholeOperand
  cases hplain : r.isPlain with
  | false =>
    simp only [hplain, Bool.and_false, Bool.false_and, Bool.false_eq_true, if_false] at hle ⊢
    omega
  | true =>
    rw [hplain, Bool.and_true] at hle
    rcases hl.whole with hleft | ⟨hp, hc⟩
    · split at hle
      all_goals
        simp only [if_true]
        omega
    · simp only [hp, hc, beq_self_eq_true, Bool.and_self, if_true] at hle ⊢
      omega

end RuleSet

namespace Query.Expr
open Node RuleSet

variable {s : Schema} {level : Level} {ts : List Token} {e : Expr}

/-- Whether the tree of an expression is negated. -/
def isNegated : Expr → Bool
  | clause _ | reference _ | join _ _ _ => false
  | not e => !e.isNegated
  | group e => e.isNegated

/-- Whether the tree of an expression has a name or parentheses of its own. -/
def isEnclosed : Expr → Bool
  | clause _ | join _ _ _ => false
  | reference _ | group _ => true
  | not e => e.isEnclosed

/-- Whether the tree of an expression stays a ruleset of its own among other operands. -/
def isMarked (e : Expr) : Bool := e.isNegated || e.isEnclosed

/-- How many operands with a mark are joined to what stands on their left, on the way to one place
of an expression. -/
def wraps : Expr → Nat
  | clause _ | reference _ => 0
  | not e => e.wraps
  | group e => e.wraps
  | join _ l r => max l.wraps r.wraps + if r.isMarked then 1 else 0

/-- Where references have no definition, a tree has the marks of its expression. -/
theorem marks_toTree (hs : s.store = none) (e : Expr) : (e.toTree s).negated = e.isNegated ∧
    ((e.toTree s).name.isSome || (e.toTree s).parenthesized) = e.isEnclosed := by
  induction e with
  | clause => exact ⟨rfl, rfl⟩
  | reference name => simp [toTree_reference hs, RuleSet.reference, isNegated, isEnclosed]
  | not e ih => simpa [toTree_not hs, isNegated, isEnclosed] using ih
  | group e ih => simpa [toTree, isNegated, isEnclosed] using ih.1
  | join c l r =>
    have hmerges := merges_merge c (l.toTree s) (r.toTree s)
    obtain ⟨hneg, hname, hpar⟩ := Header.isPlain_iff.1 hmerges.isPlain
    simp [toTree, hneg, hname, hpar, isNegated, isEnclosed]

theorem isPlain_toTree (hs : s.store = none) (e : Expr) :
    (e.toTree s).isPlain = !e.isMarked := by
  obtain ⟨hneg, hkept⟩ := marks_toTree hs e
  rw [isMarked, ← hneg, ← hkept, Header.isPlain]
  cases (e.toTree s).negated <;> cases (e.toTree s).name <;>
    cases (e.toTree s).parenthesized <;> rfl

theorem innerHeight_not (hs : s.store = none) (e : Expr) :
    ((Expr.not e).toTree s).innerHeight = (e.toTree s).innerHeight := by
  rw [toTree_not hs, innerHeight, innerHeight]

/-- What the name of a reference adds to the rulesets of an expression. -/
def namesHeight (e : Expr) : Nat := if e.names = [] then 0 else 1

@[simp] theorem namesHeight_not (e : Expr) : (not e).namesHeight = e.namesHeight := rfl

@[simp] theorem namesHeight_group (e : Expr) : (group e).namesHeight = e.namesHeight := rfl

theorem namesHeight_join (c : Condition) (l r : Expr) :
    (join c l r).namesHeight = max l.namesHeight r.namesHeight := by
  unfold namesHeight
  simp only [names, List.append_eq_nil_iff]
  by_cases hl : l.names = [] <;> by_cases hr : r.names = [] <;> simp [hl, hr]

/-- The tree of an expression nests no more rulesets than its negations, its groups and its marked
operands account for. -/
theorem low_toTree (hs : s.store = none) (h : Spells level ts e) :
    (e.toTree s).Low level (e.wraps + 2 * e.depth + e.namesHeight) := by
  induction h with
  | clause => exact .inl ⟨Nat.le_refl 0, Nat.le_refl 0⟩
  | @reference t =>
    rw [toTree_reference hs]
    exact .inl ⟨Nat.zero_le _, Nat.le_refl 1⟩
  | @not _ _ e _ _ ih =>
    obtain h | ⟨_, hmem, _⟩ := ih
    · have hinner := innerHeight_not hs e
      have hle := h.inner
      have hwhole := ((Expr.not e).toTree s).wholeHeight_le
      refine .inl ⟨?_, ?_⟩
      all_goals
        simp only [wraps, depth, namesHeight_not]
        omega
    · cases hmem
  | @group _ _ _ e _ _ _ ih =>
    have hle := ih.inner
    have hinner : ((Expr.group e).toTree s).innerHeight = (e.toTree s).innerHeight := rfl
    have hwhole := ((Expr.group e).toTree s).wholeHeight_le
    simp only [Condition.looseness] at hle
    refine .inl ⟨?_, ?_⟩
    all_goals
      simp only [wraps, depth, namesHeight_group]
      omega
  | @single c _ _ _ ih =>
    obtain h | ⟨c', hmem, h⟩ := ih
    · exact .inl h
    · refine .inr ⟨c', ?_, h⟩
      cases c with
      | and => cases hmem
      | or => exact List.mem_append_left [Condition.or] hmem
  | @join c _ _ _ l r _ _ _ ihl ihr =>
    obtain ⟨hjoins, hplain, hinner⟩ := lowJoined_merge ihl ihr
    refine .inr ⟨c, by cases c <;> decide, hjoins, hplain, Nat.le_trans hinner ?_⟩
    rw [isPlain_toTree hs, namesHeight_join]
    simp only [wraps, depth]
    cases r.isMarked <;> simp only [Bool.not_true, Bool.not_false, if_true, Bool.false_eq_true,
      if_false] <;> omega

/-- A tree that holds a single node has nothing joined in it. -/
theorem wraps_of_length (hs : s.store = none)
    (h : (e.toTree s).children.length = 1) : e.wraps = 0 := by
  induction e with
  | clause | reference => rfl
  | not e ih => exact ih (by rwa [toTree_not hs] at h)
  | group e ih => exact ih h
  | join c l r =>
    have htwo := (merges_merge c (l.toTree s) (r.toTree s)).several (tidy_toTree hs l)
      (tidy_toTree hs r)
    rw [toTree] at h
    omega

/-- The tree of an expression nests a ruleset for each marked operand on the way down. -/
theorem wraps_le_innerHeight (hs : s.store = none) (e : Expr) :
    e.wraps ≤ (e.toTree s).innerHeight := by
  induction e with
  | clause | reference => exact Nat.zero_le _
  | not e ih => exact innerHeight_not hs e ▸ ih
  | group e ih => exact ih
  | join c l r ihl ihr =>
    have hplain := isPlain_toTree hs r
    rw [toTree, wraps]
    cases hmark : r.isMarked with
    | false =>
      have hle := (merges_merge c (l.toTree s) (r.toTree s)).innerHeight_le
      simp only [Bool.false_eq_true, if_false]
      omega
    | true =>
      rw [hmark, Bool.not_true] at hplain
      have hright := wholeHeight_of_marked hplain
      rw [merge_of_marked hplain, ofChildren, innerHeight_pair, if_pos rfl]
      -- A left operand that gives way to what it holds wraps nothing itself.
      rcases (l.toTree s).wholeHeight_cases with hleft | ⟨_, _, hone⟩
      · omega
      · have hzero := wraps_of_length hs hone
        omega

/-- The text `!a & !a & ...` with `n + 1` operands. -/
def negatedLettersText : Nat → List Char
  | 0 => ['!', 'a']
  | n + 1 => negatedLettersText n ++ (Condition.and.joiner.toList ++ ['!', 'a'])

def negatedLetters (n : Nat) : String := String.ofList (negatedLettersText n)

/-- What `!a` spells. -/
def ofNegatedLetter : Expr := .not (.clause (.search ⟨.word, "a"⟩))

/-- What `!a & !a & ...` spells. -/
def ofNegatedLetters : Nat → Expr
  | 0 => ofNegatedLetter
  | n + 1 => .join .and (ofNegatedLetters n) ofNegatedLetter

theorem wraps_ofNegatedLetters (n : Nat) : (ofNegatedLetters n).wraps = n := by
  induction n with
  | zero => rfl
  | succ n ih =>
    have hmark : ofNegatedLetter.isMarked = true := rfl
    have hwraps : ofNegatedLetter.wraps = 0 := rfl
    rw [ofNegatedLetters, wraps, ih, hmark, hwraps, if_pos rfl, Nat.max_zero]

theorem depth_ofNegatedLetters (n : Nat) : (ofNegatedLetters n).depth = 1 := by
  induction n with
  | zero => rfl
  | succ n ih =>
    rw [ofNegatedLetters, depth, ih]
    rfl

theorem lexes_negatedLetter : Lexes ['!', 'a'] [⟨.symbol, "!"⟩, ⟨.word, "a"⟩] := by
  have hbare : IsBare ['a'] := .of_all (by decide) (by decide)
  have hword : Lexes ['a'] [⟨.word, "a"⟩] := by
    intro rest hrest
    exact tokenize_word hbare.isWord hrest.endsWord
  exact lexes_bang hword (by simp) (by decide +kernel)

theorem spells_negatedLetter :
    Spells .operand [⟨.symbol, "!"⟩, ⟨.word, "a"⟩] ofNegatedLetter :=
  .not rfl (.clause (.search (by decide +kernel)))

theorem spells_negatedLetters (n : Nat) :
    Spells (.chain .or) (tokenize (negatedLetters n).toList) (ofNegatedLetters n) := by
  obtain ⟨ts, hlex, hspells⟩ : ∃ ts, Lexes (negatedLettersText n) ts ∧
      Spells (.chain .and) ts (ofNegatedLetters n) := by
    induction n with
    | zero => exact ⟨_, lexes_negatedLetter, .single spells_negatedLetter⟩
    | succ n ih =>
      obtain ⟨ts, hlex, hspells⟩ := ih
      exact ⟨_, lexes_joiner hlex lexes_negatedLetter,
        .join hspells rfl spells_negatedLetter⟩
  rw [negatedLetters, String.toList_ofList, hlex.tokenize]
  exact .single hspells

end Expr

/-- What is read is spelled by the tokens that were consumed. -/
theorem spells_of_parse {s : Schema} {text : String} {p : Parsed}
    (h : (parse s text).value = .ok p) :
    ∃ e, Expr.Spells (.chain .or) ((tokenize text.toList).take p.consumed) e ∧
      e.depth ≤ maxDepth ∧ p.tree = (e.toTree s).simplify := by
  have htokens : (parseTokens s (tokenize text.toList)).value = .ok p := h
  simp only [parseTokens] at htokens
  split at htokens
  · cases htokens
  · rename_i q hq
    cases htokens
    obtain ⟨hspells, hd⟩ := Expr.spells_of_read hq
    exact ⟨q.value, hspells, hd, rfl⟩

/-- A chain of negated letters is read as a whole. -/
theorem parse_negatedLetters (s : Schema) (n : Nat) :
    ∃ p, (parse s (Expr.negatedLetters n)).value = .ok p ∧ p.isComplete = true ∧
      p.consumed = (tokenize (Expr.negatedLetters n).toList).length ∧
      p.tree = ((Expr.ofNegatedLetters n).toTree s).simplify := by
  have hd : (Expr.ofNegatedLetters n).depth ≤ maxDepth := by
    rw [Expr.depth_ofNegatedLetters]
    decide
  obtain ⟨h, hc⟩ := (parseTokens_iff (s := s)).2 ⟨_, Expr.spells_negatedLetters n, hd, rfl⟩
  exact ⟨_, h, hc, rfl, rfl⟩

/-- Without stored rulesets, a tree that was read nests as many rulesets as marked operands are
joined on the right on one way down its query, and from there on no more than two for each place
that opens a negation or a group, and one for a name. Since such operands can be joined without
end, no number bounds it. -/
theorem parse_height {s : Schema} (hs : s.store = none) :
    (∀ text p, (parse s text).value = .ok p →
      ∃ e, Expr.Spells (.chain .or) ((tokenize text.toList).take p.consumed) e ∧
        e.depth ≤ maxDepth ∧ e.wraps < p.tree.height ∧
        p.tree.height ≤ e.wraps + 2 * (e.depth + 1) + e.namesHeight) ∧
      ∀ n, ∃ text p, (parse s text).value = .ok p ∧ p.isComplete = true ∧ n < p.tree.height := by
  refine ⟨?_, ?_⟩
  · intro text p h
    obtain ⟨e, hspells, hd, htree⟩ := spells_of_parse h
    have hlow := (Expr.low_toTree hs hspells).inner
    have hwraps := Expr.wraps_le_innerHeight hs e
    refine ⟨e, hspells, hd, ?_⟩
    rw [htree, RuleSet.height_simplify]
    simp only [Condition.looseness] at hlow
    omega
  · intro n
    obtain ⟨p, h, hc, _, htree⟩ := parse_negatedLetters s n
    have hwraps := Expr.wraps_le_innerHeight hs (Expr.ofNegatedLetters n)
    rw [Expr.wraps_ofNegatedLetters] at hwraps
    refine ⟨_, p, h, hc, ?_⟩
    rw [htree, RuleSet.height_simplify]
    exact Nat.lt_succ_of_le hwraps

/-- With 260 operands, the text `!a & !a & ...` gives a tree that is higher than two rulesets for
each negation and group that may be open. -/
theorem parse_height_negated_letters :
    let s : Schema := { field? := fun _ => none }
    ∃ p, (parse s (Expr.negatedLetters 259)).value = .ok p ∧ p.isComplete = true ∧
      2 * (maxDepth + 1) < p.tree.height := by
  intro s
  obtain ⟨p, h, hc, hconsumed, _⟩ := parse_negatedLetters s 259
  obtain ⟨e, hspells, _, hwraps, _⟩ := (parse_height (s := s) rfl).1 _ p h
  rw [hconsumed, List.take_length] at hspells
  obtain rfl := hspells.unique (Expr.spells_negatedLetters 259)
  rw [Expr.wraps_ofNegatedLetters] at hwraps
  exact ⟨p, h, hc, Nat.lt_of_le_of_lt (by decide) hwraps⟩

end Query

end BoolQuery
