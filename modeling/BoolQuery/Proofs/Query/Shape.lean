import BoolQuery.Proofs.Query.Nesting
import BoolQuery.Proofs.Query.TreeMeaning

/-! The text of a tree that was read nests no deeper than the query it was read from, so it
can be read again. Trees that were read have a shape: a ruleset with a single child joins by
`and`, and simplifying such a tree only ever takes parentheses away. -/

namespace BoolQuery

namespace Node
open Query

variable {h : Header} {kids : List Node} {outer : Option Condition}

mutual

/-- The nodes that reading makes: outside named rulesets every rule passes `P`, no ruleset is
empty, and a ruleset with a single child joins by `and`. -/
def Shaped (P : Rule → Prop) : Node → Prop
  | rule r => P r
  | group h kids =>
    match h.name with
    | some name => isRuleSetName name = true
    | none => kids ≠ [] ∧ (kids.length = 1 → h.condition = .and) ∧ ShapedAll P kids

def ShapedAll (P : Rule → Prop) : List Node → Prop
  | [] => True
  | n :: ns => n.Shaped P ∧ ShapedAll P ns

end

variable {P : Rule → Prop}

theorem shaped_of_name_eq_none (hname : h.name = none) : (group h kids).Shaped P ↔
    kids ≠ [] ∧ (kids.length = 1 → h.condition = .and) ∧ ShapedAll P kids := by
  simp [Shaped, hname]

theorem shaped_of_name {name : String} (hname : h.name = some name) :
    (group h kids).Shaped P ↔ isRuleSetName name = true := by
  simp [Shaped, hname]

theorem shapedAll_append {ns ms : List Node} (hns : ShapedAll P ns) (hms : ShapedAll P ms) :
    ShapedAll P (ns ++ ms) := by
  induction ns with
  | nil => exact hms
  | cons n ns ih => exact ⟨hns.1, ih hns.2⟩

mutual

theorem Shaped.proper : (n : Node) → n.Shaped P → n.Proper P
  | rule _ => id
  | group h kids => fun hn => by
    unfold Proper
    cases hname : h.name with
    | some name => exact (shaped_of_name hname).1 hn
    | none =>
      obtain ⟨hne, _, hkids⟩ := (shaped_of_name_eq_none hname).1 hn
      exact ⟨hne, ShapedAll.proper kids hkids⟩

theorem ShapedAll.proper : (ns : List Node) → ShapedAll P ns → ProperAll P ns
  | [] => fun _ => trivial
  | n :: ns => fun hns => ⟨Shaped.proper n hns.1, ShapedAll.proper ns hns.2⟩

end

theorem length_simplifyAll (ns : List Node) : (simplifyAll ns).length = ns.length := by
  induction ns with
  | nil => rfl
  | cons n ns ih => simp [simplifyAll, ih]

theorem simplifyAll_ne_nil (hne : kids ≠ []) : simplifyAll kids ≠ [] := by
  intro hnil
  have := length_simplifyAll kids
  rw [hnil] at this
  exact hne (List.length_eq_zero_iff.1 this.symm)

theorem shaped_simplifyAll (hn : (group h kids).Shaped P)
    (hall : ShapedAll P kids → ShapedAll P (simplifyAll kids)) :
    (group h (simplifyAll kids)).Shaped P := by
  cases hname : h.name with
  | some name => exact (shaped_of_name hname).2 ((shaped_of_name hname).1 hn)
  | none =>
    obtain ⟨hne, hone, hkids⟩ := (shaped_of_name_eq_none hname).1 hn
    refine (shaped_of_name_eq_none hname).2 ⟨simplifyAll_ne_nil hne, ?_, hall hkids⟩
    rwa [length_simplifyAll]

mutual

theorem Shaped.simplify : (n : Node) → n.Shaped P → n.simplify.Shaped P
  | rule _ => id
  | group h kids => fun hn => by
    rw [Node.simplify]
    have hgroup := shaped_simplifyAll hn (ShapedAll.simplifyAll kids)
    obtain ⟨only, honly, hp, hu⟩ | hu := unwrap_cases h (simplifyAll kids)
    · obtain ⟨hplain, _⟩ := Header.isPlainAnd_iff.1 hp
      obtain ⟨_, hname, _⟩ := Header.isPlain_iff.1 hplain
      rw [honly, shaped_of_name_eq_none hname] at hgroup
      rw [hu]
      exact hgroup.2.2.1
    · rwa [hu]

theorem ShapedAll.simplifyAll : (ns : List Node) → ShapedAll P ns →
    ShapedAll P (simplifyAll ns)
  | [] => fun _ => trivial
  | n :: ns => fun hns => ⟨Shaped.simplify n hns.1, ShapedAll.simplifyAll ns hns.2⟩

end

theorem isAtomic_unwrap (h : Header) (kids : List Node) :
    (unwrap h kids).isAtomic = (group h kids).isAtomic := by
  obtain ⟨only, rfl, hp, hu⟩ | hu := unwrap_cases h kids
  · obtain ⟨hplain, _⟩ := Header.isPlainAnd_iff.1 hp
    obtain ⟨hneg, _⟩ := Header.isPlain_iff.1 hplain
    simp [hu, isAtomic, isAtomicAlone, hneg]
  · rw [hu]

mutual

theorem isAtomic_simplify : (n : Node) → n.simplify.isAtomic = n.isAtomic
  | rule _ => rfl
  | group h kids => by
    rw [Node.simplify, isAtomic_unwrap, isAtomic, isAtomic, isAtomicAlone_simplifyAll]

theorem isAtomicAlone_simplifyAll : (ns : List Node) →
    isAtomicAlone (simplifyAll ns) = isAtomicAlone ns
  | [] => rfl
  | [only] => isAtomic_simplify only
  | _ :: _ :: _ => rfl

end

theorem simplify_of_marked (hmark : h.name.isSome = true ∨ h.negated = true) :
    (group h kids).simplify = group h (simplifyAll kids) := by
  rw [Node.simplify]
  obtain ⟨only, honly, hp, hu⟩ | hu := unwrap_cases h (simplifyAll kids)
  · obtain ⟨hplain, _⟩ := Header.isPlainAnd_iff.1 hp
    obtain ⟨hneg, hname, _⟩ := Header.isPlain_iff.1 hplain
    simp [hneg, hname] at hmark
  · exact hu

/-- A negated ruleset that is written as a name still is after simplifying. -/
theorem soleName?_simplifyAll {name : String} (hsole : soleName? kids = some name) :
    soleName? (simplifyAll kids) = some name := by
  obtain ⟨header, below, rfl, hneg, hheader⟩ := soleName?_eq_some hsole
  have hmark : header.name.isSome = true ∨ header.negated = true := .inl (by simp [hheader])
  simp [simplifyAll, simplify_of_marked hmark, soleName?, hneg, hheader]

/-- The children of a ruleset may nest less deep one by one. -/
theorem nestingOfAll_simplifyAll_le (c : Condition) (ns : List Node)
    (hns : ∀ n ∈ ns, ∀ outer, n.simplify.nesting outer ≤ n.nesting outer) :
    nestingOfAll c (simplifyAll ns) ≤ nestingOfAll c ns := by
  induction ns with
  | nil => exact Nat.le_refl _
  | cons n ns ih =>
    have hn := hns n (by simp) (some c)
    have hrest := ih fun m hm => hns m (by simp [hm])
    simp only [simplifyAll, nestingOfAll]
    omega

theorem nesting_simplifyAll_le (hn : (group h kids).Shaped P) (outer : Option Condition)
    (hle : ShapedAll P kids → ∀ n ∈ kids, ∀ outer, n.simplify.nesting outer ≤ n.nesting outer) :
    (group h (simplifyAll kids)).nesting outer ≤ (group h kids).nesting outer := by
  cases hname : h.name with
  | some name => rw [nesting_of_name hname, nesting_of_name hname]
  | none =>
    obtain ⟨_, hone, hshaped⟩ := (shaped_of_name_eq_none hname).1 hn
    have hkids := hle hshaped
    have hall := nestingOfAll_simplifyAll_le h.condition kids hkids
    cases hneg : h.negated with
    | true =>
      have hbangs : bangs (simplifyAll kids) = bangs kids := by
        simp only [bangs, negatesBare_eq, isAtomicAlone_simplifyAll]
      rw [nesting_of_negated hname hneg, nesting_of_negated hname hneg, hbangs]
      cases hsole : soleName? kids with
      | some name => simp [soleName?_simplifyAll hsole]
      | none =>
        have hbang : 1 ≤ bangs kids := by
          unfold bangs
          split <;> omega
        rw [Option.isSome_none, if_neg Bool.false_ne_true]
        split <;> omega
    | false =>
      rcases kids with _ | ⟨only, _ | ⟨n, ns⟩⟩
      · exact Nat.le_refl _
      · have hcond := hone rfl
        rw [simplifyAll, simplifyAll, nesting_wrapper hname hneg hcond,
          nesting_wrapper hname hneg hcond]
        exact hkids only (by simp) outer
      · rw [nesting_of_unmarked hname hneg, nesting_of_unmarked hname hneg]
        exact Nat.add_le_add_right hall _

mutual

/-- Simplifying takes no text deeper. -/
theorem nesting_simplify_le : (n : Node) → n.Shaped P → ∀ outer,
    n.simplify.nesting outer ≤ n.nesting outer
  | rule _ => fun _ _ => Nat.le_refl _
  | group h kids => fun hn outer => by
    rw [Node.simplify, nesting_unwrap]
    exact nesting_simplifyAll_le hn outer (nesting_simplify_le_all kids)

theorem nesting_simplify_le_all : (ns : List Node) → ShapedAll P ns → ∀ n ∈ ns, ∀ outer,
    n.simplify.nesting outer ≤ n.nesting outer
  | [] => fun _ n hn => by cases hn
  | m :: ns => fun hns n hn outer => by
    cases hn with
    | head => exact nesting_simplify_le m hns.1 outer
    | tail _ hn => exact nesting_simplify_le_all ns hns.2 n hn outer

end

end Node

namespace RuleSet
open Node Query

variable {condition : Condition} {t l r : RuleSet} {P : Rule → Prop}

theorem Merges.name (h : Merges condition l r t) : t.name = none := by
  cases h with
  | spliced hl | grafted hl => exact (Header.isPlain_iff.1 hl).2.1
  | unwrapped | paired => rfl

theorem shaped_of_isPlain (hp : t.isPlain = true) (ht : t.toNode.Shaped P) :
    t.children ≠ [] ∧ ShapedAll P t.children := by
  obtain ⟨_, hname, _⟩ := Header.isPlain_iff.1 hp
  obtain ⟨hne, _, hkids⟩ := (shaped_of_name_eq_none hname).1 ht
  exact ⟨hne, hkids⟩

theorem shaped_of_length {h : Header} {ns ms : List Node} (hname : h.name = none)
    (hns : ns ≠ [] ∧ ShapedAll P ns) (hms : ms ≠ [] ∧ ShapedAll P ms) :
    (group h (ns ++ ms)).Shaped P := by
  have hn := List.length_pos_of_ne_nil hns.1
  have hm := List.length_pos_of_ne_nil hms.1
  refine (shaped_of_name_eq_none hname).2 ⟨by simp [hns.1], fun hone => ?_, ?_⟩
  · rw [List.length_append] at hone
    omega
  · exact shapedAll_append hns.2 hms.2

theorem Merges.shaped (h : Merges condition l r t) (hl : l.toNode.Shaped P)
    (hr : r.toNode.Shaped P) : t.toNode.Shaped P := by
  have hsingle {u : RuleSet} (hu : u.toNode.Shaped P) :
      [u.toNode] ≠ [] ∧ ShapedAll P [u.toNode] := ⟨by simp, hu, trivial⟩
  cases h with
  | spliced hpl hpr _ _ =>
    have hname := (Header.isPlain_iff.1 hpl).2.1
    exact shaped_of_length hname (shaped_of_isPlain hpl hl) (shaped_of_isPlain hpr hr)
  | grafted hpl _ =>
    have hname := (Header.isPlain_iff.1 hpl).2.1
    exact shaped_of_length hname (shaped_of_isPlain hpl hl) (hsingle hr)
  | unwrapped hpl hpr _ _ =>
    exact shaped_of_length rfl (shaped_of_isPlain hpl hl) (shaped_of_isPlain hpr hr)
  | paired => exact shaped_of_length rfl (hsingle hl) (hsingle hr)

/-- An operand nests no deeper than `d`, whatever marks it has besides its name; a negation that
it does not have yet counts one more. -/
def NestsAlone (d : Nat) (t : RuleSet) : Prop :=
  ∀ h : Header, h.name = t.name → h.condition = t.condition →
    (group h t.children).nesting (some .and) ≤ d + if h.negated && !t.negated then 1 else 0

/-- Operands joined under a condition nest no deeper than `d`. -/
structure NestsJoined (c : Condition) (d : Nat) (t : RuleSet) : Prop where
  unnamed : t.name = none
  unnegated : t.negated = false
  joins : t.condition = c
  children : nestingOfAll c t.children ≤ d

/-- Among operands that are joined by `c`, a tree or the children that are taken over from it
nest no deeper than `d`. -/
structure NestsUnder (c : Condition) (d : Nat) (t : RuleSet) : Prop where
  whole : t.toNode.nesting (some c) ≤ d
  spliced : t.isPlain = true → t.condition = c ∨ t.children.length = 1 →
    nestingOfAll c t.children ≤ d

/-- What holds of the tree of an expression of a level. -/
def Nests (level : Level) (d : Nat) (t : RuleSet) : Prop :=
  t.NestsAlone d ∨ ∃ c ∈ level.conditions, t.NestsJoined c d

variable {c c' : Condition} {d dl dr : Nat}

theorem NestsAlone.whole (h : t.NestsAlone d) : t.toNode.nesting (some .and) ≤ d := by
  have hle := h t.toHeader rfl rfl
  rwa [Bool.and_not_self, if_neg Bool.false_ne_true, Nat.add_zero] at hle

theorem NestsAlone.under (h : t.NestsAlone d) (c : Condition) : t.NestsUnder c d := by
  refine ⟨Nat.le_trans (nesting_le_and _ _) h.whole, ?_⟩
  intro hp hc
  obtain ⟨hneg, hname, _⟩ := Header.isPlain_iff.1 hp
  obtain rfl | hone := hc
  · exact Nat.le_trans (nestingOfAll_le hname hneg) h.whole
  · obtain ⟨only, honly⟩ := List.length_eq_one_iff.1 hone
    have hwhole := h.whole
    rw [toNode, honly] at hwhole
    rw [honly, nestingOfAll_singleton]
    exact Nat.le_trans (nesting_only_le hname hneg c) hwhole

theorem NestsJoined.under (h : t.NestsJoined c' d) (hc : c.precedence ≤ c'.precedence) :
    t.NestsUnder c d := by
  obtain ⟨hname, hneg, rfl, hkids⟩ := h
  refine ⟨Nat.le_trans (nesting_unmarked_le hname hneg hc) hkids, ?_⟩
  intro _ hor
  obtain rfl | hone := hor
  · exact hkids
  · obtain ⟨only, honly⟩ := List.length_eq_one_iff.1 hone
    rw [honly, nestingOfAll_singleton] at hkids ⊢
    have hle : outerRank (some c) ≤ outerRank (some t.condition) := hc
    exact Nat.le_trans (nesting_mono hle only).1 hkids

theorem Nests.under {level : Level} (h : t.Nests level d)
    (hc : ∀ c' ∈ level.conditions, c.precedence ≤ c'.precedence) : t.NestsUnder c d := by
  obtain h | ⟨c', hmem, h⟩ := h
  · exact h.under c
  · exact h.under (hc c' hmem)

/-- A pair of parentheses, and a `!` before it, is all that joined operands need to stand
alone. -/
theorem NestsJoined.alone (h : t.NestsJoined c d) :
    NestsAlone (d + 1) { t with parenthesized := true } := by
  obtain ⟨hname, hneg, rfl, hkids⟩ := h
  intro h hname' hcond
  change h.condition = t.condition at hcond
  rw [← hcond] at hkids
  cases hn : h.negated with
  | true =>
    have hle : (group h t.children).nesting (some .and) ≤
        nestingOfAll h.condition t.children + 2 := nesting_negated_le (hname'.trans hname) hn
    simp only [hneg, Bool.not_false, Bool.and_self, if_true]
    exact Nat.le_trans hle (by omega)
  | false =>
    have hand := (nesting_mono (outerRank_le_and (some h.condition)) (group h t.children)).2
    have hsame : (group h t.children).nesting (some h.condition) ≤
        nestingOfAll h.condition t.children :=
      nesting_unmarked_le (hname'.trans hname) hn (Nat.le_refl _)
    have hd := Nat.le_trans hand (Nat.succ_le_succ (Nat.le_trans hsame hkids))
    exact Nat.le_trans hd (Nat.le_add_right _ _)

/-- Joining puts no operand deeper than it was. -/
theorem Merges.joined (h : Merges c l r t) (hl : l.NestsUnder c dl) (hr : r.NestsUnder c dr) :
    t.NestsJoined c (max dl dr) := by
  have hmax {ns ms : List Node} (hns : nestingOfAll c ns ≤ dl) (hms : nestingOfAll c ms ≤ dr) :
      nestingOfAll c (ns ++ ms) ≤ max dl dr := by
    rw [nestingOfAll_append]
    omega
  have hwhole {u : RuleSet} {d : Nat} (hu : u.NestsUnder c d) :
      nestingOfAll c [u.toNode] ≤ d := by
    rw [nestingOfAll_singleton]
    exact hu.whole
  refine ⟨h.name, ?_, ?_, ?_⟩
  · cases h with
    | spliced hp | grafted hp => exact (Header.isPlain_iff.1 hp).1
    | unwrapped | paired => rfl
  · cases h with
    | spliced _ _ hc | grafted _ hc => exact hc
    | unwrapped | paired => rfl
  · cases h with
    | spliced hpl hpr hc hor => exact hmax (hl.spliced hpl (.inl hc)) (hr.spliced hpr hor)
    | grafted hpl hc => exact hmax (hl.spliced hpl (.inl hc)) (hwhole hr)
    | unwrapped hpl hpr h1 h1' =>
      exact hmax (hl.spliced hpl (.inr h1)) (hr.spliced hpr (.inr h1'))
    | paired => exact hmax (hwhole hl) (hwhole hr)

end RuleSet

namespace Query.Expr
open Node RuleSet

variable {s : Schema} {P : Rule → Prop} {level : Level} {ts : List Token} {e : Expr}

theorem Spells.isRuleSetName (h : Spells level ts e) :
    ∀ name ∈ e.names, isRuleSetName name = true := by
  induction h with
  | clause => simp [names]
  | @reference t ht =>
    intro name hname
    obtain rfl : name = t.text := by simpa [names] using hname
    exact (Bool.and_eq_true_iff.1 ht).2
  | not _ _ ih | group _ _ _ ih | single _ ih => exact ih
  | join _ _ _ ihl ihr =>
    intro name hname
    rw [names, List.mem_append] at hname
    rcases hname with hname | hname
    · exact ihl name hname
    · exact ihr name hname

/-- The tree of an expression has the shape of trees that were read. -/
theorem shaped_toTree (hrules : ∀ r ∈ e.rules s, P r)
    (hnames : ∀ name ∈ e.names, isRuleSetName name = true) : (e.toTree s).toNode.Shaped P := by
  induction e with
  | clause c =>
    have hr : P (c.toRule s) := hrules _ (by simp [rules])
    exact (shaped_of_name_eq_none rfl).2 ⟨List.cons_ne_nil _ _, fun _ => rfl, hr, trivial⟩
  | reference name =>
    exact (shaped_of_name (name_resolve s name)).2 (hnames name (by simp [names]))
  | not e ih =>
    have ht := ih hrules hnames
    rw [toTree, negate]
    split
    · exact (shaped_of_name_eq_none rfl).2 ⟨by simp, fun _ => rfl, ht, trivial⟩
    · exact ht
  | group e ih => exact ih hrules hnames
  | join condition l r ihl ihr =>
    refine (merges_merge condition _ _).shaped
      (ihl (fun r h => hrules r ?_) fun n h => hnames n ?_)
      (ihr (fun r h => hrules r ?_) fun n h => hnames n ?_)
    all_goals simp [rules, names, h]

/-- Where rulesets are stored and no definition is a negation, a named tree is not negated: a
negation is put around it. -/
theorem negated_toTree_of_name (hs : s.store.isSome = true)
    (hnames : ∀ name ∈ e.names, (resolve s name).negated = false)
    (hname : (e.toTree s).name.isSome = true) : (e.toTree s).negated = false := by
  induction e with
  | clause c => cases hname
  | reference name => exact hnames name (by simp [names])
  | not e ih =>
    simp only [toTree, negate, hs, Bool.and_true] at hname
    split at hname
    · cases hname
    · rename_i hne
      exact absurd hname hne
  | group e ih => exact ih hnames hname
  | join condition l r _ _ =>
    rw [toTree, (merges_merge condition _ _).name] at hname
    cases hname

theorem nestsAlone_ofRule (r : Rule) : (ofRule r).NestsAlone 0 := by
  intro h hname hcond
  cases hneg : h.negated with
  | true =>
    rw [nesting_of_negated hname hneg]
    exact Nat.le_refl 1
  | false =>
    have hwrap : (Node.group h [.rule r]).nesting (some .and) = (Node.rule r).nesting (some .and) :=
      nesting_wrapper hname hneg hcond
    exact Nat.le_trans (Nat.le_of_eq hwrap) (Nat.zero_le _)

theorem nestsAlone_of_name {t : RuleSet} {name : String} (hname : t.name = some name)
    (hneg : t.negated = false) : t.NestsAlone 0 := by
  intro h hname' _
  rw [nesting_of_name (hname'.trans hname), hneg, Bool.not_false, Bool.and_true, Nat.zero_add]

theorem nestsAlone_negate {t : RuleSet} {d : Nat} (h : t.NestsAlone d)
    (hneg : s.store.isSome = true → t.name.isSome = true → t.negated = false) :
    (negate s t).NestsAlone (d + 1) := by
  unfold negate
  split
  · rename_i hname
    obtain ⟨hname, hs⟩ := Bool.and_eq_true_iff.1 hname
    have ht := hneg hs hname
    obtain ⟨name, hname⟩ := Option.isSome_iff_exists.1 hname
    intro h' hname' hcond
    cases hn : h'.negated with
    | true =>
      have hsole : soleName? [t.toNode] = some name := by simp [toNode, soleName?, ht, hname]
      rw [nesting_of_negated hname' hn, hsole]
      exact Nat.le_add_left 1 d
    | false =>
      rw [nesting_wrapper hname' hn hcond, toNode, nesting_of_name hname, ht]
      exact Nat.zero_le _
  · intro h' hname hcond
    refine Nat.le_trans (h h' hname hcond) ?_
    split <;> omega

/-- The tree of an expression nests no deeper than the expression. -/
theorem nests_toTree (hnames : ∀ name ∈ e.names, (resolve s name).negated = false)
    (h : Spells level ts e) : (e.toTree s).Nests level e.depth := by
  induction h with
  | clause => exact .inl (nestsAlone_ofRule _)
  | @reference t =>
    exact .inl (nestsAlone_of_name (name_resolve s t.text) (hnames _ (by simp [names])))
  | @not _ _ e _ _ ih =>
    obtain h | ⟨_, hmem, _⟩ := ih hnames
    · exact .inl (nestsAlone_negate h fun hs hname => negated_toTree_of_name hs hnames hname)
    · cases hmem
  | group _ _ _ ih =>
    obtain h | ⟨c, _, h⟩ := ih hnames
    · refine .inl ?_
      intro h' hname hcond
      exact Nat.le_trans (h h' hname hcond) (Nat.add_le_add_right (Nat.le_succ _) _)
    · exact .inl h.alone
  | @single c _ _ _ ih =>
    obtain h | ⟨c', hmem, h⟩ := ih hnames
    · exact .inl h
    · refine .inr ⟨c', ?_, h⟩
      cases c with
      | and => cases hmem
      | or =>
        obtain rfl := List.mem_singleton.1 hmem
        decide
  | @join c _ _ _ l r _ _ _ ihl ihr =>
    have hl := ihl fun name hn => hnames name (List.mem_append_left _ hn)
    have hr := ihr fun name hn => hnames name (List.mem_append_right _ hn)
    refine .inr ⟨c, by cases c <;> decide, (merges_merge c _ _).joined (hl.under ?_) (hr.under ?_)⟩
    · cases c <;> decide
    · cases c <;> decide

/-- A query that was read and simplified is written no deeper than it was. -/
theorem nesting_simplify_toTree_le
    (hnames : ∀ name ∈ e.names, isRuleSetName name = true ∧ (resolve s name).negated = false)
    (h : Spells (.chain .or) ts e) : (e.toTree s).simplify.toNode.nesting none ≤ e.depth := by
  have hshaped : (e.toTree s).toNode.Shaped fun _ => True :=
    shaped_toTree (fun _ _ => trivial) fun name hn => (hnames name hn).1
  have hnests := nests_toTree (fun name hn => (hnames name hn).2) h
  have hrank : outerRank none ≤ outerRank (some .or) := Nat.zero_le _
  calc (e.toTree s).simplify.toNode.nesting none
      ≤ (e.toTree s).toNode.nesting none :=
        nesting_simplifyAll_le hshaped none (nesting_simplify_le_all _)
    _ ≤ (e.toTree s).toNode.nesting (some .or) :=
        (nesting_mono hrank _).1
    _ ≤ e.depth := (hnests.under (c := .or) (by decide)).whole

/-- Every simplified tree of a query passes what its rules and names pass. -/
theorem proper_simplify_toTree (hrules : ∀ r ∈ e.rules s, P r)
    (hnames : ∀ name ∈ e.names, isRuleSetName name = true) :
    (e.toTree s).simplify.toNode.Proper P := by
  have hshaped := shaped_toTree hrules hnames
  exact Shaped.proper _ (shaped_simplifyAll hshaped (ShapedAll.simplifyAll _))

end Query.Expr

end BoolQuery
