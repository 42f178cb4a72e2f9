import BoolQuery.Proofs.Query.Shape
import BoolQuery.Proofs.Validity

/-! The text of trees without names. The writer passes over an unmarked wrapper as long as no name
stands in it, and looks through it when it decides whether a `!` needs parentheses. So the wrappers
that simplifying takes away do not show in the text. -/

namespace BoolQuery

namespace Node
open Query

variable {n : Node} {kids : List Node}

theorem hasName_of_names_eq_nil (hn : n.names = []) : n.hasName = false := by
  cases n with
  | rule _ => rfl
  | group h kids =>
    obtain ⟨hname, _⟩ := List.append_eq_nil_iff.1 hn
    simpa [hasName] using hname

theorem names_of_namesOfAll {ns : List Node} (hns : namesOfAll (n :: ns) = []) :
    n.names = [] ∧ namesOfAll ns = [] :=
  List.append_eq_nil_iff.1 hns

/-- A negation around children without names has no name to be joined to. -/
theorem soleName?_of_unnamed (hkids : namesOfAll kids = []) : soleName? kids = none := by
  cases hsole : soleName? kids with
  | none => rfl
  | some name =>
    obtain ⟨header, below, rfl, _, hname⟩ := soleName?_eq_some hsole
    have hnone := hasName_of_names_eq_nil (names_of_namesOfAll hkids).1
    simp [hasName, hname] at hnone

theorem names_simplify_eq_nil (hn : n.names = []) : n.simplify.names = [] := by
  rw [names_eq_nil_iff] at hn ⊢
  rwa [leaves_simplify]

theorem namesOfAll_simplifyAll_eq_nil (hkids : namesOfAll kids = []) :
    namesOfAll (simplifyAll kids) = [] := by
  rw [namesOfAll_eq_nil_iff] at hkids ⊢
  rwa [leavesOfAll_simplifyAll]

/-- A wrapper is written as its child is, unless the child has a name. -/
theorem queryText_unwrap_of_unnamed (h : Header) (hkids : namesOfAll kids = [])
    (outer : Option Condition) :
    (unwrap h kids).queryText outer = (group h kids).queryText outer := by
  obtain ⟨only, rfl, hp, hu⟩ | hu := unwrap_cases h kids
  · obtain ⟨hneg, hname, _⟩ := Header.isPlain_iff.1 (Header.isPlainAnd_iff.1 hp).1
    have honly := hasName_of_names_eq_nil (names_of_namesOfAll hkids).1
    rw [hu]
    simp [queryText, hname, hneg, aloneText?, honly]
  · rw [hu]

mutual

/-- Simplifying does not change the text of a node without names, wherever it stands. -/
theorem queryText_simplify_of_unnamed (outer : Option Condition) : (n : Node) → n.names = [] →
    n.simplify.queryText outer = n.queryText outer
  | rule _ => fun _ => rfl
  | group h kids => fun hn => by
    have hkids : namesOfAll kids = [] := (List.append_eq_nil_iff.1 hn).2
    have hsimple := namesOfAll_simplifyAll_eq_nil hkids
    rw [simplify, queryText_unwrap_of_unnamed h hsimple, queryText, queryText,
      soleName?_of_unnamed hkids, soleName?_of_unnamed hsimple, negatesBare_eq, negatesBare_eq,
      isAtomicAlone_simplifyAll, aloneText?_simplifyAll outer kids hkids,
      queryTexts_simplifyAll_of_unnamed h.condition kids hkids]

theorem aloneText?_simplifyAll (outer : Option Condition) : (ns : List Node) →
    namesOfAll ns = [] → aloneText? outer (simplifyAll ns) = aloneText? outer ns
  | [] => fun _ => rfl
  | [only] => fun hns => by
    obtain ⟨honly, _⟩ := names_of_namesOfAll hns
    rw [simplifyAll, simplifyAll, aloneText?, aloneText?, hasName_of_names_eq_nil honly,
      hasName_of_names_eq_nil (names_simplify_eq_nil honly),
      queryText_simplify_of_unnamed outer only honly]
  | _ :: _ :: _ => fun _ => rfl

theorem queryTexts_simplifyAll_of_unnamed (c : Condition) : (ns : List Node) →
    namesOfAll ns = [] → queryTexts c (simplifyAll ns) = queryTexts c ns
  | [] => fun _ => rfl
  | n :: ns => fun hns => by
    obtain ⟨hn, hns⟩ := names_of_namesOfAll hns
    rw [simplifyAll, queryTexts, queryTexts, queryText_simplify_of_unnamed (some c) n hn,
      queryTexts_simplifyAll_of_unnamed c ns hns]

end

end Node

namespace RuleSet
open Node

variable {t : RuleSet}

theorem names_eq_nil_of_unnamed (ht : ∀ u ∈ t.rulesets, u.name = none) : t.toNode.names = [] := by
  refine List.eq_nil_iff_forall_not_mem.2 fun name hname => ?_
  obtain ⟨u, hu, hsome⟩ := (mem_names_iff t.toNode).1 hname
  exact nomatch (ht u hu).symm.trans hsome

/-- Simplifying does not change the text of a tree without names. The root stays a ruleset, but it
is written as it would be if it gave way too. -/
theorem toQuery_simplify_of_unnamed (ht : ∀ u ∈ t.rulesets, u.name = none) :
    t.simplify.toQuery = t.toQuery := by
  have hnames := names_eq_nil_of_unnamed ht
  have hkids : namesOfAll t.children = [] := (List.append_eq_nil_iff.1 hnames).2
  have hsimple := namesOfAll_simplifyAll_eq_nil hkids
  have htext : t.simplify.toNode.queryText none = t.toNode.queryText none :=
    calc
      _ = t.toNode.simplify.queryText none :=
        (queryText_unwrap_of_unnamed t.toHeader hsimple none).symm
      _ = t.toNode.queryText none := queryText_simplify_of_unnamed none t.toNode hnames
  rw [toQuery, htext, toQuery]

/-- A negation around two wrappers, pairs with wrappers in them and around them, an empty group. -/
theorem toQuery_simplify_of_unnamed_wrapped :
    let a : Node := .rule { field := "a", operator := "=", value := some (.string "x") }
    let b : Node := .rule { field := "b", operator := "=", value := some (.string "y") }
    let wrap : Node → Node := fun n => .group {} [n]
    let t := ofChildren .and [.group { condition := .or, negated := true } [wrap (wrap a)],
      .group { condition := .or, parenthesized := true } [wrap a, b],
      wrap (.group { condition := .or } [a, wrap b]), .group {} []]
    (∀ u ∈ t.rulesets, u.name = none) ∧ t.simplify.toQuery = t.toQuery ∧
      t.toQuery = "!a=x & (a=x | b=y) & (a=x | b=y) & " ∧ (t.simplify == t) = false := by
  intro a b wrap t
  have ht : ∀ u ∈ t.rulesets, u.name = none := by decide
  exact ⟨ht, toQuery_simplify_of_unnamed ht, by decide +kernel, by decide +kernel⟩

/-- Behind a negation a wrapper around a name shows: it keeps its parentheses. -/
example :
    let t : RuleSet := { negated := true, children := [.group {} [(reference "A").toNode]] }
    t.toQuery = "!(A)" ∧ t.simplify.toQuery = "!A" := by
  decide +kernel

end RuleSet

end BoolQuery
