import BoolQuery.Proofs.RuleSet.Meaning
import BoolQuery.Proofs.Validity

/-! The rulesets inside a tree. Joining two trees adds one ruleset to those of the operands, and a
ruleset of a simplified tree is a simplified ruleset of the tree; none of these has a wrapper for a
child. -/

namespace BoolQuery

namespace Node

variable {h : Header} {ns ms : List Node} {n only : Node} {u : RuleSet}

theorem rulesetsOfAll_append (ns ms : List Node) :
    rulesetsOfAll (ns ++ ms) = rulesetsOfAll ns ++ rulesetsOfAll ms := by
  induction ns with
  | nil => rfl
  | cons n ns ih => simp [rulesetsOfAll, ih]

theorem rulesetsOfAll_singleton (n : Node) : rulesetsOfAll [n] = n.rulesets := List.append_nil _

theorem mem_rulesetsOfAll (hn : n ∈ ns) (hu : u ∈ n.rulesets) : u ∈ rulesetsOfAll ns := by
  induction ns with
  | nil => cases hn
  | cons m ns ih =>
    obtain rfl | hn := List.mem_cons.1 hn
    · exact List.mem_append_left _ hu
    · exact List.mem_append_right _ (ih hn)

theorem exists_of_mem_rulesetsOfAll (hu : u ∈ rulesetsOfAll ns) : ∃ n ∈ ns, u ∈ n.rulesets := by
  induction ns with
  | nil => cases hu
  | cons n ns ih =>
    obtain hu | hu := List.mem_append.1 hu
    · exact ⟨n, List.mem_cons_self, hu⟩
    · obtain ⟨m, hm, hu⟩ := ih hu
      exact ⟨m, List.mem_cons_of_mem _ hm, hu⟩

mutual

/-- The rulesets of a ruleset inside a node are inside the node. -/
theorem rulesets_trans {v : RuleSet} : (n : Node) → v ∈ n.rulesets → u ∈ v.rulesets →
    u ∈ n.rulesets
  | rule _ => nofun
  | group h kids => fun hv hu => by
    obtain rfl | hv := List.mem_cons.1 hv
    · exact hu
    · exact List.mem_cons_of_mem _ (rulesetsOfAll_trans kids hv hu)

theorem rulesetsOfAll_trans {v : RuleSet} : (ns : List Node) → v ∈ rulesetsOfAll ns →
    u ∈ v.rulesets → u ∈ rulesetsOfAll ns
  | [] => nofun
  | n :: ns => fun hv hu => by
    obtain hv | hv := List.mem_append.1 hv
    · exact List.mem_append_left _ (rulesets_trans n hv hu)
    · exact List.mem_append_right _ (rulesetsOfAll_trans ns hv hu)

end

theorem rulesets_unwrap_subset (h : Header) (ns : List Node) :
    (unwrap h ns).rulesets ⊆ (group h ns).rulesets := by
  obtain ⟨only, rfl, _, hu⟩ | hu := unwrap_cases h ns
  · rw [hu, rulesets, rulesetsOfAll_singleton]
    exact List.subset_cons_self _ _
  · rw [hu]
    exact List.Subset.refl _

mutual

/-- The rulesets of a simplified node are simplified rulesets of the node. -/
theorem exists_of_mem_rulesets_simplify : (n : Node) → u ∈ n.simplify.rulesets →
    ∃ v ∈ n.rulesets, u = v.simplify
  | rule _ => fun hu => by cases hu
  | group h kids => fun hu => by
    obtain rfl | hu := List.mem_cons.1 (rulesets_unwrap_subset h _ hu)
    · exact ⟨⟨h, kids⟩, List.mem_cons_self, rfl⟩
    · obtain ⟨v, hv, heq⟩ := exists_of_mem_rulesetsOfAll_simplifyAll kids hu
      exact ⟨v, List.mem_cons_of_mem _ hv, heq⟩

theorem exists_of_mem_rulesetsOfAll_simplifyAll : (ns : List Node) →
    u ∈ rulesetsOfAll (simplifyAll ns) → ∃ v ∈ rulesetsOfAll ns, u = v.simplify
  | [] => fun hu => by cases hu
  | n :: ns => fun hu => by
    simp only [rulesetsOfAll, List.mem_append]
    obtain hu | hu := List.mem_append.1 hu
    · obtain ⟨v, hv, heq⟩ := exists_of_mem_rulesets_simplify n hu
      exact ⟨v, .inl hv, heq⟩
    · obtain ⟨v, hv, heq⟩ := exists_of_mem_rulesetsOfAll_simplifyAll ns hu
      exact ⟨v, .inr hv, heq⟩

end

/-- Those of some rulesets that carry a mark. -/
def marked (us : List RuleSet) : List RuleSet := us.filter fun u => !u.isPlain

theorem marked_append (us vs : List RuleSet) : marked (us ++ vs) = marked us ++ marked vs :=
  List.filter_append _ _

/-- A ruleset without marks adds nothing to those inside it. -/
theorem marked_rulesets_of_isPlain (hp : h.isPlain = true) :
    marked (group h ns).rulesets = marked (rulesetsOfAll ns) :=
  List.filter_cons_of_neg (by simp [hp])

theorem marked_rulesets_unwrap (h : Header) (ns : List Node) :
    marked (unwrap h ns).rulesets = marked (group h ns).rulesets := by
  obtain ⟨only, rfl, hp, hu⟩ | hu := unwrap_cases h ns
  · rw [hu, marked_rulesets_of_isPlain (Header.isPlainAnd_iff.1 hp).1, rulesetsOfAll_singleton]
  · rw [hu]

mutual

/-- Simplifying a node simplifies its marked rulesets and loses none of them. -/
theorem marked_rulesets_simplify : (n : Node) →
    marked n.simplify.rulesets = (marked n.rulesets).map RuleSet.simplify
  | rule _ => rfl
  | group h kids => by
    have hkids := marked_rulesetsOfAll_simplifyAll kids
    rw [simplify, marked_rulesets_unwrap]
    by_cases hp : h.isPlain = true
    · rw [marked_rulesets_of_isPlain hp, marked_rulesets_of_isPlain hp, hkids]
    · unfold marked at hkids ⊢
      simp only [rulesets, List.filter_cons, hp, Bool.not_false, if_true, List.map_cons, hkids]
      rfl

theorem marked_rulesetsOfAll_simplifyAll : (ns : List Node) →
    marked (rulesetsOfAll (simplifyAll ns)) = (marked (rulesetsOfAll ns)).map RuleSet.simplify
  | [] => rfl
  | n :: ns => by
    rw [simplifyAll, rulesetsOfAll, rulesetsOfAll, marked_append, marked_append, List.map_append,
      marked_rulesets_simplify, marked_rulesetsOfAll_simplifyAll]

end

theorem mem_simplifyAll : n ∈ simplifyAll ns ↔ ∃ m ∈ ns, m.simplify = n := by
  induction ns with
  | nil => simp [simplifyAll]
  | cons m ns ih => simp [simplifyAll, ih, eq_comm]

mutual

/-- A wrapper gives way to its child, which is simplified before and so is no wrapper either. -/
theorem isPlainAnd_of_simplify : (n : Node) → n.simplify = group h [only] →
    h.isPlainAnd = false
  | rule _ => nofun
  | group h' kids => fun heq => by
    have hinner := isPlainAnd_of_simplifyAll kids
    rw [Node.simplify] at heq
    generalize simplifyAll kids = ns at heq hinner
    match ns with
    | [] => cases heq
    | _ :: _ :: _ => cases heq
    | [m] =>
      simp only [unwrap] at heq
      split at heq
      next => exact hinner m (List.mem_singleton_self m) heq
      next hplain =>
        cases heq
        exact Bool.eq_false_iff.2 hplain

theorem isPlainAnd_of_simplifyAll : (ns : List Node) → ∀ m ∈ simplifyAll ns,
    m = group h [only] → h.isPlainAnd = false
  | [] => nofun
  | n :: ns => by
    intro m hm heq
    obtain rfl | hm := List.mem_cons.1 hm
    · exact isPlainAnd_of_simplify n heq
    · exact isPlainAnd_of_simplifyAll ns m hm heq

end

end Node

namespace RuleSet
open Node

variable {c : Condition} {l r t u : RuleSet}

/-- No child is a wrapper that says nothing. -/
def Unwrapped (u : RuleSet) : Prop := ∀ h n, .group h [n] ∈ u.children → h.isPlainAnd = false

theorem exists_of_mem_rulesets_simplify (hu : u ∈ t.simplify.rulesets) :
    ∃ v ∈ t.rulesets, u = v.simplify := by
  obtain rfl | hu := List.mem_cons.1 hu
  · exact ⟨t, List.mem_cons_self, rfl⟩
  · obtain ⟨v, hv, heq⟩ := exists_of_mem_rulesetsOfAll_simplifyAll t.children hu
    exact ⟨v, List.mem_cons_of_mem _ hv, heq⟩

theorem unwrapped_simplify (hu : u ∈ t.simplify.rulesets) : u.Unwrapped := by
  obtain ⟨v, _, rfl⟩ := exists_of_mem_rulesets_simplify hu
  exact fun h n hn => isPlainAnd_of_simplifyAll v.children _ hn rfl

theorem marked_rulesets_simplify (t : RuleSet) :
    marked t.simplify.rulesets = (marked t.rulesets).map simplify := by
  have hkids := marked_rulesetsOfAll_simplifyAll t.children
  unfold marked at hkids ⊢
  simp only [rulesets, toNode, Node.rulesets, simplify, List.filter_cons]
  split <;> simp [hkids, simplify]

/-- Joining keeps the marked rulesets of the operands: what gives way to a joined ruleset is
unmarked. -/
theorem Merges.marked_rulesets (h : Merges c l r t) :
    marked t.rulesets = marked l.rulesets ++ marked r.rulesets := by
  have hplain {v : RuleSet} (hp : v.isPlain = true) :
      marked v.rulesets = marked (rulesetsOfAll v.children) := marked_rulesets_of_isPlain hp
  rw [hplain h.isPlain]
  cases h with
  | spliced hpl hpr | unwrapped hpl hpr =>
    simp only [hplain hpl, hplain hpr, ofChildren, rulesetsOfAll_append, marked_append]
  | grafted hpl =>
    rw [hplain hpl, ← marked_append, rulesetsOfAll_append, rulesetsOfAll_singleton]
    rfl
  | paired =>
    rw [← marked_append, ofChildren, rulesetsOfAll, rulesetsOfAll_singleton]
    rfl

/-- The rulesets of a joined tree are those of its operands, and itself. -/
theorem Merges.mem_rulesets (h : Merges c l r t) (hu : u ∈ t.rulesets) :
    u = t ∨ u ∈ l.rulesets ∨ u ∈ r.rulesets := by
  refine (List.mem_cons.1 hu).imp_right fun hu => ?_
  have hcons {v : RuleSet} (hv : u ∈ rulesetsOfAll v.children) : u ∈ v.rulesets :=
    List.mem_cons_of_mem _ hv
  cases h with
  | spliced | unwrapped =>
    simp only [ofChildren, rulesetsOfAll_append, List.mem_append] at hu
    exact hu.imp hcons hcons
  | grafted =>
    rw [rulesetsOfAll_append, rulesetsOfAll_singleton, List.mem_append] at hu
    exact hu.imp_left hcons
  | paired =>
    simp only [ofChildren, rulesetsOfAll, List.append_nil, List.mem_append] at hu
    exact hu

end RuleSet

end BoolQuery
