import BoolQuery.Proofs.Query.Rendering
import BoolQuery.Proofs.Query.Shape

/-! The text of trees that were read. Such a tree is tidy: a ruleset without a name holds a single
rule, a single named ruleset that it may negate, or several nodes. So its text goes by conditions
and negations alone: joining two trees joins their texts, and neither simplifying nor parentheses
of its own change the text of a tree. -/

namespace BoolQuery

namespace Node
open Query

variable {h : Header} {kids : List Node} {outer : Option Condition}

/-- An `and` around nothing but a ruleset of that name, which is not negated itself. Where rulesets
are stored, the opposite of a reference is made so. -/
def WrapsName (h : Header) (kids : List Node) (name : String) : Prop :=
  h.condition = .and ∧
    ∃ h' defs, kids = [group h' defs] ∧ h'.name = some name ∧ h'.negated = false

mutual

/-- Outside named rulesets, no ruleset holds a ruleset alone unless for its name, and none is
empty. -/
def Tidy : Node → Prop
  | rule _ => True
  | group h kids => h.name = none →
    (∃ r, kids = [rule r]) ∨ (∃ name, WrapsName h kids name) ∨ (2 ≤ kids.length ∧ TidyAll kids)

def TidyAll : List Node → Prop
  | [] => True
  | n :: ns => n.Tidy ∧ TidyAll ns

end

theorem tidyAll_append {ns ms : List Node} (hns : TidyAll ns) (hms : TidyAll ms) :
    TidyAll (ns ++ ms) := by
  induction ns with
  | nil => exact hms
  | cons n ns ih => exact ⟨hns.1, ih hns.2⟩

theorem tidyAll_singleton {n : Node} (hn : n.Tidy) : TidyAll [n] := ⟨hn, trivial⟩

theorem tidy_of_name {name : String} (hname : h.name = some name) : (group h kids).Tidy := by
  intro hnone
  rw [hname] at hnone
  cases hnone

theorem tidyAll_of_tidy (hname : h.name = none) (hn : (group h kids).Tidy) :
    kids ≠ [] ∧ TidyAll kids := by
  obtain ⟨r, rfl⟩ | ⟨_, _, h', defs, rfl, hname', _⟩ | ⟨hlength, hkids⟩ := hn hname
  · exact ⟨List.cons_ne_nil _ _, tidyAll_singleton trivial⟩
  · exact ⟨List.cons_ne_nil _ _, tidyAll_singleton (tidy_of_name hname')⟩
  · exact ⟨List.ne_nil_of_length_pos (by omega), hkids⟩

theorem queryText_of_name {name : String} (hname : h.name = some name) :
    (group h kids).queryText outer = nameText h.negated name := by
  simp [queryText, hname]

theorem queryText_of_rule (hname : h.name = none) (r : Rule) :
    (group h [rule r]).queryText outer =
      if h.negated then '!' :: r.queryText else r.queryText := by
  cases hneg : h.negated <;>
    simp [queryText, queryTexts, hname, hneg, soleName?, negatesBare, isAtomic, aloneText?, hasName,
      List.intercalate]

/-- A negation around a name alone is joined to it. -/
theorem queryText_of_wrapsName {name : String} (hname : h.name = none)
    (hwraps : WrapsName h kids name) : (group h kids).queryText outer = nameText h.negated name := by
  obtain ⟨hcond, h', defs, rfl, hname', hneg'⟩ := hwraps
  have htight : h.isLooserThan outer = false := by
    cases outer with
    | none => rfl
    | some c => cases c <;> simp [Header.isLooserThan, hcond, Condition.precedence]
  cases hneg : h.negated <;>
    simp [queryText, queryTexts, hname, hneg, soleName?, aloneText?, hasName, hname', hneg', htight,
      List.intercalate]

theorem WrapsName.simplifyAll {name : String} (hwraps : WrapsName h kids name) :
    WrapsName h (simplifyAll kids) name := by
  obtain ⟨hcond, h', defs, rfl, hname', hneg'⟩ := hwraps
  refine ⟨hcond, h', Node.simplifyAll defs, ?_, hname', hneg'⟩
  rw [Node.simplifyAll, simplify_of_marked (.inl (by simp [hname'])), Node.simplifyAll]

theorem exists_cons_cons_of_length (hlength : 2 ≤ kids.length) :
    ∃ n m ns, kids = n :: m :: ns := by
  match kids, hlength with
  | n :: m :: ns, _ => exact ⟨n, m, ns, rfl⟩

/-- Several nodes are written as joined operands, in parentheses where it takes them. -/
theorem queryText_of_many (hname : h.name = none) (hlength : 2 ≤ kids.length)
    (outer : Option Condition) : (group h kids).queryText outer =
      if h.negated then '!' :: inParentheses (joinedText h.condition kids)
      else if h.isLooserThan outer then inParentheses (joinedText h.condition kids)
      else joinedText h.condition kids := by
  obtain ⟨n, m, ns, rfl⟩ := exists_cons_cons_of_length hlength
  cases hneg : h.negated <;>
    simp [queryText, hname, hneg, soleName?, negatesBare, aloneText?, joinedText]

theorem joinedText_append (c : Condition) {ns ms : List Node} (hns : ns ≠ []) (hms : ms ≠ []) :
    joinedText c (ns ++ ms) = joinedText c ns ++ (c.joiner.toList ++ joinedText c ms) := by
  induction ns with
  | nil => exact absurd rfl hns
  | cons n ns ih =>
    cases ns with
    | nil =>
      obtain ⟨m, ms, rfl⟩ := List.exists_cons_of_ne_nil hms
      rw [List.singleton_append, joinedText_cons, joinedText_singleton]
    | cons n' ns =>
      have hrest := ih (List.cons_ne_nil _ _)
      rw [List.cons_append, List.cons_append, joinedText_cons, joinedText_cons,
        ← List.cons_append, hrest]
      simp

theorem isLooserThan_self (h : Header) : h.isLooserThan (some h.condition) = false := by
  simp [Header.isLooserThan]

theorem simplify_of_length (hlength : 2 ≤ kids.length) :
    (group h kids).simplify = group h (simplifyAll kids) := by
  rw [Node.simplify]
  obtain ⟨only, honly, _⟩ | hu := unwrap_cases h (simplifyAll kids)
  · have hone := length_simplifyAll kids
    rw [honly, List.length_singleton] at hone
    omega
  · exact hu

theorem tidy_simplifyAll (hn : (group h kids).Tidy)
    (hall : TidyAll kids → TidyAll (simplifyAll kids)) : (group h (simplifyAll kids)).Tidy := by
  intro hname
  obtain ⟨r, rfl⟩ | ⟨name, hwraps⟩ | ⟨hlength, hkids⟩ := hn hname
  · exact .inl ⟨r, rfl⟩
  · exact .inr (.inl ⟨name, hwraps.simplifyAll⟩)
  · exact .inr (.inr ⟨(length_simplifyAll kids).symm ▸ hlength, hall hkids⟩)

mutual

theorem Tidy.simplify : (n : Node) → n.Tidy → n.simplify.Tidy
  | rule _ => fun _ => trivial
  | group h kids => fun hn => by
    have hgroup := tidy_simplifyAll hn (TidyAll.simplifyAll kids)
    rw [Node.simplify]
    obtain ⟨only, honly, hp, hu⟩ | hu := unwrap_cases h (simplifyAll kids)
    · obtain ⟨hplain, _⟩ := Header.isPlainAnd_iff.1 hp
      rw [honly] at hgroup
      rw [hu]
      exact (tidyAll_of_tidy (Header.isPlain_iff.1 hplain).2.1 hgroup).2.1
    · rwa [hu]

theorem TidyAll.simplifyAll : (ns : List Node) → TidyAll ns → TidyAll (simplifyAll ns)
  | [] => fun _ => trivial
  | n :: ns => fun hns => ⟨Tidy.simplify n hns.1, TidyAll.simplifyAll ns hns.2⟩

end

theorem queryText_unwrap_rule (h : Header) (r : Rule) (hname : h.name = none) :
    (unwrap h [rule r]).queryText outer = (group h [rule r]).queryText outer := by
  obtain ⟨only, honly, hp, hu⟩ | hu := unwrap_cases h [rule r]
  · obtain rfl := List.singleton_inj.1 honly
    obtain ⟨hplain, _⟩ := Header.isPlainAnd_iff.1 hp
    rw [hu, queryText_of_rule hname, (Header.isPlain_iff.1 hplain).1]
    rfl
  · rw [hu]

theorem queryText_unwrap_name {name : String} (hname : h.name = none)
    (hwraps : WrapsName h kids name) :
    (unwrap h kids).queryText outer = (group h kids).queryText outer := by
  rw [queryText_of_wrapsName hname hwraps]
  obtain ⟨_, h', defs, rfl, hname', hneg'⟩ := id hwraps
  obtain ⟨only, honly, hp, hu⟩ | hu := unwrap_cases h [group h' defs]
  · obtain rfl := List.singleton_inj.1 honly
    obtain ⟨hplain, _⟩ := Header.isPlainAnd_iff.1 hp
    rw [hu, queryText_of_name hname', hneg', (Header.isPlain_iff.1 hplain).1]
  · rw [hu, queryText_of_wrapsName hname hwraps]

/-- The text of a group whose children are written as before is as before. -/
theorem queryText_simplifyAll (hn : (group h kids).Tidy)
    (hall : TidyAll kids → ∀ c, queryTexts c (simplifyAll kids) = queryTexts c kids)
    (outer : Option Condition) :
    (group h (simplifyAll kids)).queryText outer = (group h kids).queryText outer := by
  cases hname : h.name with
  | some name => rw [queryText_of_name hname, queryText_of_name hname]
  | none =>
    obtain ⟨r, rfl⟩ | ⟨name, hwraps⟩ | ⟨hlength, hkids⟩ := hn hname
    · rfl
    · rw [queryText_of_wrapsName hname hwraps, queryText_of_wrapsName hname hwraps.simplifyAll]
    · have hlength' : 2 ≤ (simplifyAll kids).length := (length_simplifyAll kids).symm ▸ hlength
      rw [queryText_of_many hname hlength, queryText_of_many hname hlength', joinedText, joinedText,
        hall hkids]

mutual

/-- Simplifying does not change the text of a tidy node. -/
theorem queryText_simplify : (n : Node) → n.Tidy → ∀ outer,
    n.simplify.queryText outer = n.queryText outer
  | rule _ => fun _ _ => rfl
  | group h kids => fun hn outer => by
    have hgroup := queryText_simplifyAll hn (queryTexts_simplifyAll kids) outer
    cases hname : h.name with
    | some name => rwa [simplify_of_marked (.inl (by simp [hname]))]
    | none =>
      obtain ⟨r, rfl⟩ | ⟨_, hwraps⟩ | ⟨hlength, _⟩ := hn hname
      · exact queryText_unwrap_rule h r hname
      · rw [Node.simplify, queryText_unwrap_name hname hwraps.simplifyAll, hgroup]
      · rwa [simplify_of_length hlength]

theorem queryTexts_simplifyAll : (ns : List Node) → TidyAll ns → ∀ c,
    queryTexts c (simplifyAll ns) = queryTexts c ns
  | [] => fun _ _ => rfl
  | n :: ns => fun hns c => by
    rw [simplifyAll, queryTexts, queryTexts, queryText_simplify n hns.1,
      queryTexts_simplifyAll ns hns.2]

end

end Node

namespace RuleSet
open Node Query

variable {c : Condition} {l r t : RuleSet}

theorem children_of_tidy (hp : t.isPlain = true) (ht : t.toNode.Tidy) :
    t.children ≠ [] ∧ TidyAll t.children :=
  tidyAll_of_tidy (Header.isPlain_iff.1 hp).2.1 ht

/-- Two tidy trees are joined to one of several nodes. -/
theorem Merges.several (h : Merges c l r t) (hl : l.toNode.Tidy) (hr : r.toNode.Tidy) :
    2 ≤ t.children.length :=
  h.two_le_length (fun hp => (children_of_tidy hp hl).1) fun hp => (children_of_tidy hp hr).1

theorem Merges.tidy (h : Merges c l r t) (hl : l.toNode.Tidy) (hr : r.toNode.Tidy) :
    t.toNode.Tidy := by
  refine fun _ => .inr (.inr ⟨h.several hl hr, ?_⟩)
  cases h with
  | spliced hpl hpr | unwrapped hpl hpr =>
    exact tidyAll_append (children_of_tidy hpl hl).2 (children_of_tidy hpr hr).2
  | grafted hpl => exact tidyAll_append (children_of_tidy hpl hl).2 (tidyAll_singleton hr)
  | paired => exact ⟨hl, tidyAll_singleton hr⟩

/-- The children of an unmarked tree are written as on their own among operands that are joined as
they are. -/
theorem queryText_of_isPlain (hp : t.isPlain = true) (ht : t.toNode.Tidy)
    (hc : t.condition = c ∨ t.children.length = 1) :
    t.toNode.queryText (some c) = joinedText c t.children := by
  obtain ⟨hneg, hname, _⟩ := Header.isPlain_iff.1 hp
  obtain ⟨r, hkids⟩ | ⟨_, hwraps⟩ | ⟨hlength, _⟩ := ht hname
  · rw [toNode, hkids, queryText_of_rule hname, hneg, joinedText_singleton]
    rfl
  · rw [toNode, queryText_of_wrapsName hname hwraps, hneg]
    obtain ⟨_, h', defs, hkids, hname', hneg'⟩ := hwraps
    rw [hkids, joinedText_singleton, queryText_of_name hname', hneg']
  · obtain rfl : t.condition = c := hc.resolve_right (by omega)
    rw [toNode, queryText_of_many hname hlength, hneg, isLooserThan_self]
    rfl

/-- The text of joined trees is their texts, joined. -/
theorem Merges.queryText (h : Merges c l r t) (hl : l.toNode.Tidy) (hr : r.toNode.Tidy) :
    t.toNode.queryText (some c) = l.toNode.queryText (some c) ++
      (c.joiner.toList ++ r.toNode.queryText (some c)) := by
  rw [queryText_of_isPlain h.isPlain (h.tidy hl hr) (.inl h.condition_eq)]
  cases h with
  | spliced hpl hpr hc hor =>
    rw [joinedText_append c (children_of_tidy hpl hl).1 (children_of_tidy hpr hr).1,
      queryText_of_isPlain hpl hl (.inl hc), queryText_of_isPlain hpr hr hor]
  | grafted hpl hc =>
    rw [joinedText_append c (children_of_tidy hpl hl).1 (List.cons_ne_nil _ _),
      queryText_of_isPlain hpl hl (.inl hc), joinedText_singleton]
  | unwrapped hpl hpr hl1 hr1 =>
    rw [ofChildren, joinedText_append c (children_of_tidy hpl hl).1 (children_of_tidy hpr hr).1,
      queryText_of_isPlain hpl hl (.inr hl1), queryText_of_isPlain hpr hr (.inr hr1)]
  | paired => rw [ofChildren, joinedText_cons, joinedText_singleton]

/-- Simplifying does not change the text of a tidy tree. -/
theorem toQuery_simplify (ht : t.toNode.Tidy) : t.simplify.toQuery = t.toQuery :=
  congrArg String.ofList (queryText_simplifyAll ht (queryTexts_simplifyAll t.children) none)

end RuleSet

namespace Query.Expr
open Node RuleSet

variable {s : Schema}

theorem toTree_reference (hs : s.store = none) (name : String) :
    toTree s (.reference name) = .reference name := by
  simp [toTree, resolve, Schema.lookup, hs]

theorem toTree_not (hs : s.store = none) (e : Expr) :
    toTree s (.not e) = { e.toTree s with negated := !(e.toTree s).negated } := by
  simp [toTree, negate, hs]

/-- Where no definition is a negation, the tree of an expression is tidy. -/
theorem tidy_toTree_of_unnegated (hs : ∀ name, (resolve s name).negated = false) (e : Expr) :
    (e.toTree s).toNode.Tidy := by
  induction e with
  | clause c => exact fun _ => .inl ⟨_, rfl⟩
  | reference name => exact tidy_of_name (name_resolve s name)
  | not e ih =>
    rw [toTree, negate]
    split
    next hnamed =>
      obtain ⟨hname, hstore⟩ := Bool.and_eq_true_iff.1 hnamed
      have hneg := negated_toTree_of_name hstore (fun name _ => hs name) hname
      obtain ⟨name, hname⟩ := Option.isSome_iff_exists.1 hname
      exact fun _ => .inr (.inl ⟨name, rfl, _, _, rfl, hname, hneg⟩)
    next => exact ih
  | group e ih => exact ih
  | join c l r ihl ihr => exact (merges_merge c _ _).tidy ihl ihr

theorem tidy_toTree (hs : s.store = none) (e : Expr) : (e.toTree s).toNode.Tidy :=
  tidy_toTree_of_unnegated (negated_resolve_of_store_eq_none hs) e

end Query.Expr

end BoolQuery
