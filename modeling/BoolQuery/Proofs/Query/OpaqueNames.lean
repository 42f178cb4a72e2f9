import BoolQuery.Proofs.Query.RoundTrip
import BoolQuery.Proofs.Query.TidyTrees

/-! What the text of a tree tells of what is behind its names. A named ruleset is written as its
name, but whether a `!` needs parentheses is decided by looking through wrappers, and through a name
at their end as well. So the text tells of a definition whether it is a single rule, exactly where a
`!` stands before wrappers around its name, and it tells nothing else. -/

namespace BoolQuery

namespace Query

/-- A text that is followed by a `)` goes on differently in parentheses of its own: they begin with
one more `(`, which nothing behind the text makes up for. -/
theorem append_ne_of_closes {rest : List Char} (hrest : Closes rest) (cs after : List Char) :
    cs ++ rest ≠ '(' :: (cs ++ after) := by
  induction cs with
  | nil =>
    intro heq
    obtain h | h := hrest '(' (by simp [show rest = '(' :: after from heq])
    all_goals cases h
  | cons c cs ih =>
    intro heq
    obtain ⟨rfl, htail⟩ := List.cons.inj heq
    exact ih htail

theorem inParentheses_append (cs rest : List Char) :
    inParentheses cs ++ rest = '(' :: (cs ++ ')' :: rest) := by
  simp [inParentheses]

end Query

namespace Node
open Query

mutual

/-- The nodes differ in what is behind names at most: a named ruleset may have other children, and
join them otherwise. -/
inductive SameOutside : Node → Node → Prop
  | rule (r : Rule) : SameOutside (.rule r) (.rule r)
  | named (h : Header) (named : h.name.isSome = true) (condition : Condition)
      (kids kids' : List Node) :
      SameOutside (.group h kids) (.group { h with condition := condition } kids')
  | unnamed {kids kids'} (h : Header) (unnamed : h.name = none) : SameOutsideAll kids kids' →
      SameOutside (.group h kids) (.group h kids')

inductive SameOutsideAll : List Node → List Node → Prop
  | nil : SameOutsideAll [] []
  | cons {n m ns ms} : n.SameOutside m → SameOutsideAll ns ms →
      SameOutsideAll (n :: ns) (m :: ms)

end

mutual

/-- Whether the definition behind a name is a single rule, where wrappers that are not negated lead
to the name. -/
def wrapped? : Node → Option Bool
  | rule _ => none
  | group h kids =>
    if h.negated then none
    else if h.name.isSome then some (isAtomicAlone kids)
    else wrappedAlone? kids

def wrappedAlone? : List Node → Option Bool
  | [only] => only.wrapped?
  | _ => none

end

/-- What a `!` before these children tells of a definition: there has to be a wrapper between them,
as the `!` is joined to a name that it stands before. -/
def told? : List Node → Option Bool
  | [only] => if only.hasName then none else only.wrapped?
  | _ => none

mutual

/-- What the text of a node tells of definitions, from left to right: for each `!` before wrappers
around a name, whether the definition is a single rule. -/
def tells : Node → List Bool
  | rule _ => []
  | group h kids =>
    match h.name with
    | some _ => []
    | none => (if h.negated then (told? kids).toList else []) ++ tellsAll kids

def tellsAll : List Node → List Bool
  | [] => []
  | n :: ns => n.tells ++ tellsAll ns

end

variable {n m : Node} {ns ms kids kids' : List Node} {h : Header}

theorem tells_of_name (hname : h.name.isSome = true) : (group h kids).tells = [] := by
  obtain ⟨name, hname⟩ := Option.isSome_iff_exists.1 hname
  simp [tells, hname]

theorem tells_of_unnamed (hname : h.name = none) : (group h kids).tells =
    (if h.negated then (told? kids).toList else []) ++ tellsAll kids := by
  simp [tells, hname]

theorem tellsAll_cons (n : Node) (ns : List Node) : tellsAll (n :: ns) = n.tells ++ tellsAll ns :=
  rfl

theorem tellsAll_singleton (n : Node) : tellsAll [n] = n.tells := List.append_nil _

theorem SameOutside.hasName_eq (hn : n.SameOutside m) : n.hasName = m.hasName := by
  cases hn <;> rfl

theorem SameOutsideAll.soleName?_eq (hkids : SameOutsideAll kids kids') :
    soleName? kids = soleName? kids' := by
  cases hkids with
  | nil => rfl
  | cons hn hns =>
    cases hns with
    | nil => cases hn <;> rfl
    | cons _ _ => cases hn <;> rfl

mutual

/-- Whether a node is a single rule shows outside of definitions, unless wrappers lead to a name. -/
theorem SameOutside.isAtomic_cases {m : Node} : (n : Node) → n.SameOutside m →
    (n.wrapped? = none ∧ m.wrapped? = none ∧ n.isAtomic = m.isAtomic) ∨
      (n.wrapped? = some n.isAtomic ∧ m.wrapped? = some m.isAtomic)
  | .rule _, .rule _ => .inl ⟨rfl, rfl, rfl⟩
  | .group _ _, .named h hname _ _ _ => by
    cases hneg : h.negated <;> simp [wrapped?, isAtomic, hname, hneg]
  | .group _ kids, .unnamed h hname hkids => by
    have halone := SameOutsideAll.isAtomicAlone_cases kids hkids
    cases hneg : h.negated <;> simp [wrapped?, isAtomic, hname, hneg, halone]

theorem SameOutsideAll.isAtomicAlone_cases {ms : List Node} : (ns : List Node) →
    SameOutsideAll ns ms → (wrappedAlone? ns = none ∧ wrappedAlone? ms = none ∧
        isAtomicAlone ns = isAtomicAlone ms) ∨
      (wrappedAlone? ns = some (isAtomicAlone ns) ∧
        wrappedAlone? ms = some (isAtomicAlone ms))
  | [], .nil => .inl ⟨rfl, rfl, rfl⟩
  | [only], .cons hn .nil => SameOutside.isAtomic_cases only hn
  | _ :: _ :: _, .cons _ (.cons _ _) => .inl ⟨rfl, rfl, rfl⟩

end

/-- A name that a `!` is not joined to is negated, and so not atomic. -/
theorem isAtomic_of_hasName (hname : n.hasName = true) (hsole : soleName? [n] = none) :
    n.isAtomic = false := by
  cases n with
  | rule _ => cases hname
  | group h kids =>
    have hneg : h.negated = true := by
      by_contra hneg
      simp_all [soleName?, hasName]
    simp [isAtomic, hneg]

/-- A `!` that is not joined to a name stands before both alike, with parentheses or without,
exactly if it tells of both alike. -/
theorem SameOutsideAll.told?_iff (hkids : SameOutsideAll kids kids') :
    (told? kids).isSome = (told? kids').isSome ∧ (soleName? kids = none →
      (negatesBare kids = negatesBare kids' ↔ told? kids = told? kids')) := by
  cases hkids with
  | nil => exact ⟨rfl, fun _ => ⟨fun _ => rfl, fun _ => rfl⟩⟩
  | @cons n m _ _ hn hns =>
    cases hns with
    | cons _ _ => exact ⟨rfl, fun _ => ⟨fun _ => rfl, fun _ => rfl⟩⟩
    | nil =>
      have hsame := hn.hasName_eq
      cases hname : n.hasName with
      | true =>
        refine ⟨by simp [told?, ← hsame, hname], fun hsole => ?_⟩
        have hsole' : soleName? [m] = none :=
          (SameOutsideAll.soleName?_eq (.cons hn .nil)).symm.trans hsole
        simp [told?, negatesBare, ← hsame, hname, isAtomic_of_hasName hname hsole,
          isAtomic_of_hasName (hsame ▸ hname) hsole']
      | false =>
        have htold : told? [n] = n.wrapped? ∧ told? [m] = m.wrapped? := by
          simp [told?, ← hsame, hname]
        rw [htold.1, htold.2]
        obtain ⟨hw, hw', hatomic⟩ | ⟨hw, hw'⟩ := SameOutside.isAtomic_cases n hn
        · simp [negatesBare, hw, hw', hatomic]
        · simp [negatesBare, hw, hw']

mutual

theorem SameOutside.length_tells {m : Node} : (n : Node) → n.SameOutside m →
    n.tells.length = m.tells.length
  | .rule _, .rule _ => rfl
  | .group _ _, .named h hname _ _ _ => by
    rw [tells_of_name hname, tells_of_name (by exact hname)]
  | .group _ kids, .unnamed h hname hkids => by
    have hall := SameOutsideAll.length_tellsAll kids hkids
    rw [tells_of_unnamed hname, tells_of_unnamed hname, List.length_append, List.length_append,
      hall]
    split
    · rw [Option.length_toList, Option.length_toList, hkids.told?_iff.1]
    · rfl

theorem SameOutsideAll.length_tellsAll {ms : List Node} : (ns : List Node) →
    SameOutsideAll ns ms → (tellsAll ns).length = (tellsAll ms).length
  | [], .nil => rfl
  | n :: ns, .cons hn hns => by
    rw [tellsAll, tellsAll, List.length_append, List.length_append, SameOutside.length_tells n hn,
      SameOutsideAll.length_tellsAll ns hns]

end

mutual

/-- Wrappers are not negated, so nothing else is told on the way to a name. -/
theorem tells_of_wrapped? : (n : Node) → n.wrapped?.isSome = true → n.tells = []
  | rule _ => fun _ => rfl
  | group h kids => fun hn => by
    cases hname : h.name with
    | some name => exact tells_of_name (by simp [hname])
    | none =>
      cases hneg : h.negated with
      | true => simp [wrapped?, hneg] at hn
      | false =>
        rw [tells_of_unnamed hname, hneg]
        exact tellsAll_of_wrappedAlone? kids (by simpa [wrapped?, hneg, hname] using hn)

theorem tellsAll_of_wrappedAlone? : (ns : List Node) → (wrappedAlone? ns).isSome = true →
    tellsAll ns = []
  | [] => nofun
  | [only] => fun hn => by
    rw [tellsAll_singleton]
    exact tells_of_wrapped? only hn
  | _ :: _ :: _ => nofun

end

theorem tellsAll_of_told? (htold : (told? kids).isSome = true) : tellsAll kids = [] := by
  match kids, htold with
  | [only], htold =>
    rw [told?] at htold
    split at htold
    · cases htold
    · rw [tellsAll_singleton, tells_of_wrapped? only htold]

theorem tells_of_soleName? {name : String} (hname : h.name = none)
    (hsole : soleName? kids = some name) : (group h kids).tells = [] := by
  obtain ⟨header, below, rfl, _, hheader⟩ := soleName?_eq_some hsole
  rw [tells_of_unnamed hname, tellsAll_singleton, tells_of_name (by simp [hheader])]
  simp [told?, hasName, hheader]

/-- Given what the children tell, the text behind a `!` goes on alike in two nodes exactly if it
tells of both alike. -/
theorem SameOutsideAll.negatedText_iff (hkids : SameOutsideAll kids kids') (c : Condition)
    (hsole : soleName? kids = none)
    (hjoined : ∀ xs ys, Closes xs → Closes ys → (joinedText c kids ++ xs = joinedText c kids' ++ ys ↔
      tellsAll kids = tellsAll kids' ∧ xs = ys)) {xs ys : List Char} (hxs : Closes xs)
    (hys : Closes ys) : negatedText c kids ++ xs = negatedText c kids' ++ ys ↔
      (told? kids = told? kids' ∧ tellsAll kids = tellsAll kids') ∧ xs = ys := by
  obtain ⟨hsome, htold⟩ := hkids.told?_iff
  by_cases hbare : negatesBare kids = negatesBare kids'
  · have hsame := (htold hsole).1 hbare
    rw [negatedText, negatedText, ← hbare]
    cases negatesBare kids with
    | true => simp [hsame, hjoined xs ys hxs hys]
    | false =>
      have hclosed := hjoined _ _ (.parenthesis xs) (.parenthesis ys)
      simp [hsame, inParentheses_append, hclosed]
  · -- The texts are those of a name and its wrappers, one of them in parentheses.
    have hdiffer : told? kids ≠ told? kids' := fun h => hbare ((htold hsole).2 h)
    have hboth : (told? kids).isSome = true ∧ (told? kids').isSome = true := by
      cases h : told? kids <;> cases h' : told? kids' <;> simp_all
    have hnothing : tellsAll kids = tellsAll kids' :=
      (tellsAll_of_told? hboth.1).trans (tellsAll_of_told? hboth.2).symm
    have htext : joinedText c kids = joinedText c kids' := by
      simpa using (hjoined [] [] .nil .nil).2 ⟨hnothing, rfl⟩
    refine iff_of_false ?_ fun h => hdiffer h.1.1
    rw [negatedText, negatedText, htext]
    cases h : negatesBare kids <;> cases h' : negatesBare kids'
    · exact absurd (h.trans h'.symm) hbare
    · simpa [inParentheses_append] using (append_ne_of_closes hys (joinedText c kids') _).symm
    · simpa [inParentheses_append] using append_ne_of_closes hxs (joinedText c kids') _
    · exact absurd (h.trans h'.symm) hbare

mutual

/-- The texts of nodes that are the same outside of definitions go on alike, whatever may follow
them, exactly if they tell the same of the definitions. -/
theorem SameOutside.queryText_iff {m : Node} : (n : Node) → n.SameOutside m →
    (outer : Option Condition) → ∀ xs ys, Closes xs → Closes ys →
    (n.queryText outer ++ xs = m.queryText outer ++ ys ↔ n.tells = m.tells ∧ xs = ys)
  | .rule r, .rule _ => fun _ _ _ _ _ => by simp [tells]
  | .group _ kids, .named h hname condition _ kids' => fun outer _ _ _ _ => by
    obtain ⟨name, hsome⟩ := Option.isSome_iff_exists.1 hname
    rw [queryText_of_name hsome, queryText_of_name (by exact hsome), tells_of_name hname,
      tells_of_name (by exact hname), List.append_right_inj, and_iff_right rfl]
  | .group _ kids, .unnamed h hname hkids => fun outer xs ys hxs hys => by
    have hjoined := SameOutsideAll.joinedText_iff kids hkids h.condition
    cases hneg : h.negated with
    | true =>
      have hsame := hkids.soleName?_eq
      cases hsole : soleName? kids with
      | some name =>
        rw [hsole] at hsame
        rw [queryText_of_soleName? hname hneg hsole, queryText_of_soleName? hname hneg hsame.symm,
          tells_of_soleName? hname hsole, tells_of_soleName? hname hsame.symm,
          List.append_right_inj, and_iff_right rfl]
      | none =>
        rw [queryText_of_negated hname hneg hsole,
          queryText_of_negated hname hneg (hsame.symm.trans hsole), tells_of_unnamed hname,
          tells_of_unnamed hname, if_pos hneg, if_pos hneg, List.cons_append, List.cons_append,
          List.cons_inj_right, hkids.negatedText_iff h.condition hsole hjoined hxs hys,
          List.append_eq_append_iff_of_size_eq_left (by rw [Option.length_toList, Option.length_toList,
            hkids.told?_iff.1]), toList_eq_toList_iff]
    | false =>
      rw [queryText_of_unmarked hname hneg, queryText_of_unmarked hname hneg, tells_of_unnamed hname,
        tells_of_unnamed hname, hneg, if_neg Bool.false_ne_true, if_neg Bool.false_ne_true,
        List.nil_append, List.nil_append]
      obtain ⟨halone, halone'⟩ | ⟨cs, cs', halone, halone', hiff⟩ :=
        SameOutsideAll.aloneText?_iff kids hkids outer
      · rw [halone, halone', Option.getD_none, Option.getD_none]
        cases h.isLooserThan outer with
        | true => simp [inParentheses_append, hjoined _ _ (.parenthesis xs) (.parenthesis ys)]
        | false => simpa using hjoined xs ys hxs hys
      · rw [halone, halone', Option.getD_some, Option.getD_some]
        exact hiff xs ys hxs hys

/-- A child that takes its parent's place does so in both. -/
theorem SameOutsideAll.aloneText?_iff {ms : List Node} : (ns : List Node) →
    SameOutsideAll ns ms → (outer : Option Condition) →
    (aloneText? outer ns = none ∧ aloneText? outer ms = none) ∨
      ∃ cs cs', aloneText? outer ns = some cs ∧ aloneText? outer ms = some cs' ∧
        ∀ xs ys, Closes xs → Closes ys →
          (cs ++ xs = cs' ++ ys ↔ tellsAll ns = tellsAll ms ∧ xs = ys)
  | [], .nil => fun _ => .inl ⟨rfl, rfl⟩
  | [only], .cons hn .nil => fun outer => by
    rw [tellsAll_singleton, tellsAll_singleton, aloneText?, aloneText?, ← hn.hasName_eq]
    split
    · exact .inl ⟨rfl, rfl⟩
    · exact .inr ⟨_, _, rfl, rfl, SameOutside.queryText_iff only hn outer⟩
  | _ :: _ :: _, .cons _ (.cons _ _) => fun _ => .inl ⟨rfl, rfl⟩

theorem SameOutsideAll.joinedText_iff {ms : List Node} : (ns : List Node) →
    SameOutsideAll ns ms → (c : Condition) → ∀ xs ys, Closes xs → Closes ys →
    (joinedText c ns ++ xs = joinedText c ms ++ ys ↔ tellsAll ns = tellsAll ms ∧ xs = ys)
  | [], .nil => fun c xs ys _ _ => by
    rw [List.append_right_inj, and_iff_right rfl]
  | [only], .cons hn .nil => fun c xs ys hxs hys => by
    rw [joinedText_singleton, joinedText_singleton, tellsAll_singleton, tellsAll_singleton,
      SameOutside.queryText_iff only hn (some c) xs ys hxs hys]
  | n :: n' :: ns, @SameOutsideAll.cons _ m _ _ hn (.cons hn' hns) => fun c xs ys hxs hys => by
    have hrest := SameOutsideAll.joinedText_iff (n' :: ns) (.cons hn' hns) c xs ys hxs hys
    rw [joinedText_cons, joinedText_cons, List.append_assoc, List.append_assoc, List.append_assoc,
      List.append_assoc, SameOutside.queryText_iff n hn (some c) _ _ (closes_joiner c _)
        (closes_joiner c _), List.append_right_inj, hrest, tellsAll_cons n, tellsAll_cons m,
      List.append_eq_append_iff_of_size_eq_left (SameOutside.length_tells n hn), and_assoc]

end

end Node

namespace RuleSet
open Node

variable {t u : RuleSet}

/-- Two trees that are the same outside of definitions have one text, exactly if it tells the same
of the definitions: at each `!` before wrappers around a name, the name stands for a single rule in
both or in neither. -/
theorem toQuery_eq_iff_tells (h : t.toNode.SameOutside u.toNode) :
    t.toQuery = u.toQuery ↔ t.toNode.tells = u.toNode.tells := by
  have hiff := SameOutside.queryText_iff t.toNode h none [] [] .nil .nil
  rw [List.append_nil, List.append_nil, and_iff_left rfl] at hiff
  rw [toQuery, toQuery, String.ofList_inj, hiff]

/-- The name stands for one rule, for two, or for nothing that is known. -/
theorem toQuery_eq_iff_tells_wrapped :
    let around (condition : Condition) (definition : List Node) : RuleSet :=
      { negated := true
        children := [.group {} [.group { condition, name := some "A" } definition]] }
    let single := around .and [.rule (.nullTest "b" false)]
    let several := around .or [.rule (.nullTest "b" false), .rule (.nullTest "c" true)]
    let unknown := around .and []
    single.toNode.SameOutside unknown.toNode ∧ single.toQuery ≠ unknown.toQuery ∧
      several.toNode.SameOutside unknown.toNode ∧ several.toQuery = unknown.toQuery := by
  intro around single several unknown
  have hsame (c : Condition) (definition : List Node) :
      (around c definition).toNode.SameOutside unknown.toNode :=
    .unnamed _ rfl (.cons (.unnamed _ rfl (.cons (.named _ rfl .and _ _) .nil)) .nil)
  exact ⟨hsame _ _, (toQuery_eq_iff_tells (hsame _ _)).not.2 (by decide), hsame _ _,
    (toQuery_eq_iff_tells (hsame _ _)).2 rfl⟩

end RuleSet

end BoolQuery
