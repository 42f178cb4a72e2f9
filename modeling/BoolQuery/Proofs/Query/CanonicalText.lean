import BoolQuery.Proofs.Query.AcceptedQueries
import BoolQuery.Proofs.Query.TidyTrees

/-! The canonical text of a query. The tree of a query is written as a text that is read again,
unless a `!` in it makes a keyword, and the tree that is read from it is written as the same text.
So one round through the reader and the writer is enough: the text does not change any more. -/

namespace BoolQuery

namespace Query.Expr
open Node RuleSet

variable {s : Schema}

/-- The text of the tree of an expression among operands that are joined by `outer`. -/
def textIn (s : Schema) (outer : Option Condition) (e : Expr) : List Char :=
  (e.toTree s).toNode.queryText outer

theorem textIn_clause {c : Clause} {r : Rule} (h : (c.toRule s == r) = true)
    (outer : Option Condition) : (clause c).textIn s outer = r.queryText := by
  rw [← Rule.queryText_of_beq h]
  exact queryText_of_rule rfl (c.toRule s)

theorem textIn_not_clause {c : Clause} {r : Rule} (hs : s.store = none)
    (h : (c.toRule s == r) = true) (outer : Option Condition) :
    (not (clause c)).textIn s outer = '!' :: r.queryText := by
  rw [← Rule.queryText_of_beq h, textIn, toTree_not hs]
  exact queryText_of_rule rfl (c.toRule s)

theorem textIn_join (hs : s.store = none) (c : Condition) (l r : Expr) :
    (join c l r).textIn s (some c) =
      l.textIn s (some c) ++ (c.joiner.toList ++ r.textIn s (some c)) :=
  (merges_merge c _ _).queryText (tidy_toTree hs l) (tidy_toTree hs r)

end Query.Expr

namespace Node
open Query RuleSet

variable {s : Schema} {h : Header} {kids : List Node}

/-- Wherever the node is written, its text is read as a tree that is written alike. -/
def Stable (s : Schema) (n : Node) : Prop :=
  ∀ outer, ∃ ts e, Lexes (n.queryText outer) ts ∧ Expr.Spells (.chain (outer.getD .or)) ts e ∧
    e.textIn s outer = n.queryText outer

/-- The text of joined nodes is read as a tree that is written alike. Several nodes are read as
joined ones. -/
def StableAll (s : Schema) (c : Condition) (kids : List Node) : Prop :=
  ∃ ts e, Lexes (joinedText c kids) ts ∧ Expr.Spells (.chain c) ts e ∧
    e.textIn s (some c) = joinedText c kids ∧ (2 ≤ kids.length → ∃ l r, e = .join c l r)

theorem stable_rule {r : Rule} (hr : r.Legible s) : Stable s (.rule r) := by
  intro outer
  obtain ⟨ts, c, hlex, hspells, heq⟩ := hr.spelled
  exact ⟨ts, _, hlex, .ofOperand (.clause hspells) _, Expr.textIn_clause heq outer⟩

/-- A ruleset of a single rule is written as the rule, or as its opposite. -/
theorem stable_single (hs : s.store = none) (hname : h.name = none) {r : Rule} (hr : r.Legible s)
    (hglues : (group h [rule r]).glues = false) : Stable s (group h [rule r]) := by
  intro outer
  obtain ⟨ts, c, hlex, hspells, heq⟩ := hr.spelled
  have hop : Expr.Spells .operand ts (.clause c) := .clause hspells
  rw [queryText_of_rule hname]
  cases hneg : h.negated with
  | false => exact ⟨ts, _, hlex, hop.ofOperand _, Expr.textIn_clause heq outer⟩
  | true =>
    have hkey : opensKeyword r.queryText = false := by
      simpa [glues, hname, hneg, soleName?, negatesBare, isAtomic, queryTexts, queryText,
        List.intercalate] using hglues
    have hnot : Expr.Spells .operand (⟨.symbol, "!"⟩ :: ts) (.not (.clause c)) :=
      .not rfl hop
    exact ⟨_, _, lexes_bang hlex (Expr.head?_ne_of_lexes hlex hop) hkey, hnot.ofOperand _,
      Expr.textIn_not_clause hs heq outer⟩

theorem stable_nameText (hs : s.store = none) {n : Node} {name : String} {negated : Bool}
    (htext : ∀ outer, n.queryText outer = nameText negated name)
    (hproper : isRuleSetName name = true)
    (hkey : negated = true → opensKeyword name.toList = false) : Stable s n := by
  intro outer
  have hop := spells_name hproper
  rw [htext]
  cases negated with
  | false =>
    refine ⟨_, _, lexes_name hproper, hop.ofOperand _, ?_⟩
    rw [Expr.textIn, Expr.toTree_reference hs]
    exact queryText_of_name rfl
  | true =>
    have hlex := lexes_name hproper
    have hnot : Expr.Spells .operand (⟨.symbol, "!"⟩ :: [⟨.word, name⟩]) (.not (.reference name)) :=
      .not rfl hop
    refine ⟨_, _, lexes_bang hlex (Expr.head?_ne_of_lexes hlex hop) (hkey rfl), hnot.ofOperand _, ?_⟩
    rw [Expr.textIn, Expr.toTree_not hs, Expr.toTree_reference hs]
    exact queryText_of_name rfl

theorem stable_name (hs : s.store = none) {name : String} (hname : h.name = some name)
    (hproper : isRuleSetName name = true) (hglues : (group h kids).glues = false) :
    Stable s (group h kids) := by
  refine stable_nameText hs (fun _ => queryText_of_name hname) hproper fun hneg => ?_
  simpa [glues, hname, hneg] using hglues

/-- A ruleset around a name is written as the name, or as its opposite. -/
theorem stable_wrapsName (hs : s.store = none) {name : String} (hname : h.name = none)
    (hwraps : WrapsName h kids name) (hkids : ProperAll (Rule.Legible s) kids)
    (hglues : (group h kids).glues = false) : Stable s (group h kids) := by
  refine stable_nameText hs (fun _ => queryText_of_wrapsName hname hwraps) ?_ fun hneg => ?_
  all_goals obtain ⟨_, h', defs, rfl, hname', hneg'⟩ := hwraps
  · simpa [ProperAll, Proper, hname'] using hkids
  · simpa [glues, hname, hneg, soleName?, hname', hneg'] using hglues

theorem stableAll_singleton {n : Node} (hn : Stable s n) (c : Condition) : StableAll s c [n] := by
  obtain ⟨ts, e, hlex, hspells, htext⟩ := hn (some c)
  rw [StableAll, joinedText_singleton]
  exact ⟨ts, e, hlex, hspells, htext, fun hlength => by simp at hlength⟩

theorem stableAll_cons (hs : s.store = none) {n m : Node} {ns : List Node} {c : Condition}
    (hn : Stable s n) (hns : StableAll s c (m :: ns)) : StableAll s c (n :: m :: ns) := by
  obtain ⟨ts, l, hlex, hl, htext⟩ := hn (some c)
  obtain ⟨us, r, hlex', hr, htext', _⟩ := hns
  have hsign : (⟨.symbol, String.ofList [joinSign c]⟩ : Token).isSymbol (joinSign c) = true := by
    simp [Token.isSymbol]
  obtain ⟨l', r', he, hmade⟩ := Expr.Spells.append hl hsign hr rfl
  have hjoined := hmade (Expr.textIn s (some c)) (fun x y => x ++ (c.joiner.toList ++ y))
    (Expr.textIn_join hs c) (by simp)
  rw [StableAll, joinedText_cons]
  exact ⟨_, _, lexes_joiner hlex hlex', he, by rw [hjoined, htext, htext'], fun _ => ⟨l', r', rfl⟩⟩

theorem stableAll_of_forall (hs : s.store = none) (c : Condition) (hne : kids ≠ [])
    (hkids : ∀ n ∈ kids, Stable s n) : StableAll s c kids := by
  induction kids with
  | nil => exact absurd rfl hne
  | cons n ns ih =>
    cases ns with
    | nil => exact stableAll_singleton (hkids n (by simp)) c
    | cons m ns =>
      exact stableAll_cons hs (hkids n (by simp))
        (ih (by simp) fun k hk => hkids k (by simp [hk]))

/-- In parentheses, no `!` stands directly before the first of several nodes. -/
theorem gluesAny_of_length (hname : h.name = none) (hlength : 2 ≤ kids.length)
    (hglues : (group h kids).glues = false) : gluesAny kids = false := by
  obtain ⟨n, m, ns, rfl⟩ := exists_cons_cons_of_length hlength
  cases hneg : h.negated <;> simpa [glues, hname, hneg, soleName?, negatesBare] using hglues

/-- Several nodes are written alike wherever they are joined alike. -/
theorem queryText_congr {h' : Header} {kids' : List Node} (hname : h.name = none)
    (hname' : h'.name = none) (hcond : h'.condition = h.condition) (hneg : h'.negated = h.negated)
    (hlength : 2 ≤ kids.length) (hlength' : 2 ≤ kids'.length)
    (htext : joinedText h.condition kids' = joinedText h.condition kids)
    (outer : Option Condition) :
    (group h' kids').queryText outer = (group h kids).queryText outer := by
  have hloose : h'.isLooserThan outer = h.isLooserThan outer := by
    rw [Header.isLooserThan, Header.isLooserThan, hcond]
  rw [queryText_of_many hname hlength, queryText_of_many hname' hlength', hcond, hneg, htext,
    hloose]

/-- A joined tree that is written as some nodes is written as them under any header that joins and
negates as theirs. -/
theorem queryText_children_merge {l r : RuleSet} {h' : Header} (hl : l.toNode.Tidy)
    (hr : r.toNode.Tidy) (hname : h.name = none) (hname' : h'.name = none)
    (hcond : h'.condition = h.condition) (hneg : h'.negated = h.negated)
    (hlength : 2 ≤ kids.length)
    (htext : (merge h.condition l r).toNode.queryText (some h.condition) =
      joinedText h.condition kids) (outer : Option Condition) :
    (group h' (merge h.condition l r).children).queryText outer =
      (group h kids).queryText outer := by
  have hmerges := merges_merge h.condition l r
  have hplain := queryText_of_isPlain hmerges.isPlain (hmerges.tidy hl hr)
    (.inl hmerges.condition_eq)
  exact queryText_congr hname hname' hcond hneg hlength (hmerges.several hl hr)
    (hplain.symm.trans htext) outer

/-- A ruleset of several nodes is read as joined operands, which are in parentheses where they were
written in some. -/
theorem stable_many (hs : s.store = none) (hname : h.name = none) (hlength : 2 ≤ kids.length)
    (hkids : StableAll s h.condition kids) : Stable s (group h kids) := by
  intro outer
  obtain ⟨ts, e, hlex, hspells, htext, hjoin⟩ := hkids
  obtain ⟨l, r, rfl⟩ := hjoin hlength
  have hmerges := merges_merge h.condition (l.toTree s) (r.toTree s)
  obtain ⟨hneg', hname', _⟩ := Header.isPlain_iff.1 hmerges.isPlain
  have hsame {h' : Header} (hname' : h'.name = none) (hcond : h'.condition = h.condition)
      (hneg : h'.negated = h.negated) := queryText_children_merge (Expr.tidy_toTree hs l)
    (Expr.tidy_toTree hs r) hname hname' hcond hneg hlength htext outer
  have hor : Expr.Spells (.chain .or) ts (.join h.condition l r) := hspells.toDisjunction
  have hgroup : Expr.Spells .operand (⟨.symbol, "("⟩ :: (ts ++ [⟨.symbol, ")"⟩]))
      (.group (.join h.condition l r)) := .group rfl rfl hor
  have hmany := queryText_of_many hname hlength outer
  cases hneg : h.negated with
  | true =>
    rw [hneg, if_pos rfl] at hmany
    have hnot : Expr.Spells .operand (⟨.symbol, "!"⟩ :: ⟨.symbol, "("⟩ :: (ts ++ [⟨.symbol, ")"⟩]))
        (.not (.group (.join h.condition l r))) := .not rfl hgroup
    refine ⟨_, _, hmany ▸ lexes_bang (lexes_parentheses hlex) (by simp [inParentheses]) rfl,
      hnot.ofOperand _, ?_⟩
    rw [Expr.textIn, Expr.toTree_not hs]
    exact hsame hname' hmerges.condition_eq (by simp [hneg, Expr.toTree, hneg'])
  | false =>
    rw [hneg, if_neg Bool.false_ne_true] at hmany
    cases hloose : h.isLooserThan outer with
    | true =>
      rw [hloose, if_pos rfl] at hmany
      exact ⟨_, _, hmany ▸ lexes_parentheses hlex, hgroup.ofOperand _,
        hsame hname' hmerges.condition_eq (hneg'.trans hneg.symm)⟩
    | false =>
      rw [hloose, if_neg Bool.false_ne_true] at hmany
      exact ⟨_, _, hmany ▸ hlex, hspells.loosen hloose,
        hsame hname' hmerges.condition_eq (hneg'.trans hneg.symm)⟩

mutual

/-- Without a keyword made by a `!`, a tidy node of legible rules is read as a tree that is written
alike. -/
theorem stable_of_tidy (hs : s.store = none) : (n : Node) → n.Proper (Rule.Legible s) → n.Tidy →
    n.glues = false → Stable s n
  | rule _ => fun hr _ _ => stable_rule hr
  | group h kids => fun hn htidy hglues => by
    unfold Proper at hn
    cases hname : h.name with
    | some name =>
      simp only [hname] at hn
      exact stable_name hs hname hn hglues
    | none =>
      simp only [hname] at hn
      obtain ⟨r, rfl⟩ | ⟨name, hwraps⟩ | ⟨hlength, hall⟩ := htidy hname
      · exact stable_single hs hname hn.2.1 hglues
      · exact stable_wrapsName hs hname hwraps hn.2 hglues
      · refine stable_many hs hname hlength (stableAll_of_forall hs h.condition hn.1 ?_)
        exact stable_of_tidyAll hs kids hn.2 hall (gluesAny_of_length hname hlength hglues)

theorem stable_of_tidyAll (hs : s.store = none) : (ns : List Node) →
    ProperAll (Rule.Legible s) ns → TidyAll ns → gluesAny ns = false → ∀ n ∈ ns, Stable s n
  | [] => fun _ _ _ n hn => by cases hn
  | m :: ns => fun hns htidy hglues => by
    rw [gluesAny, Bool.or_eq_false_iff] at hglues
    exact List.forall_mem_cons.2 ⟨stable_of_tidy hs m hns.1 htidy.1 hglues.1,
      stable_of_tidyAll hs ns hns.2 htidy.2 hglues.2⟩

end

end Node

namespace Rule
open Query

variable {s : Schema} {r : Rule}

/-- A rule of a query that can be written anywhere and read again: its field is a plain word, its
strings are read as strings, and no word of it is read as a part of an operator. -/
structure Rewritable (s : Schema) (r : Rule) : Prop where
  field : IsWritableField r.field
  strings : ∀ w, .string w ∈ r.scalars →
    isBareWord w = false ∨ s.valueOf r.field ⟨.word, w⟩ = .string w
  operand : ∀ w, r.value = some (.string w) → Clause.completesKeyword r.operator ⟨.word, w⟩ = false
  search : r.isDocumentSearch = true → ∀ w, r.value = some (.string w) → isKeyword w = false

theorem suits_valueOf {field : String} {t : Token}
    (h : ∀ w, s.valueOf field t = .string w →
      isBareWord w = false ∨ s.valueOf field ⟨.word, w⟩ = .string w) :
    (s.valueOf field t).Suits s field := by
  rcases Value.valueOf_cases s field t with ht | ⟨f, hf, ⟨x, htype, hfin, ht⟩ | ⟨b, htype, ht⟩ |
    ⟨d, htype, ht⟩⟩
  · have hw := h t.text ht
    rw [ht]
    exact hw
  · rw [ht]
    exact ⟨hfin, f, hf, htype⟩
  · rw [ht]
    exact ⟨f, hf, htype⟩
  · rw [ht]
    exact ⟨f, hf, htype⟩

/-- A rule that a query states is writable if it can be written anywhere. -/
theorem Stated.writable (hr : r.Stated s) (h : r.Rewritable s) : r.Writable s := by
  have hsuits {field : String} {t : Token} (hfield : r.field = field)
      (hmem : s.valueOf field t ∈ r.scalars) : (s.valueOf field t).Suits s field :=
    suits_valueOf fun w hw => hfield ▸ h.strings w (hw ▸ hmem)
  cases hr with
  | search t =>
    obtain ⟨u, hu⟩ := Value.exists_token?_valueOf s documentField t
    refine .search (hsuits rfl ?_) fun w hw => ?_
    · rw [scalars_of_token? hu rfl]
      exact List.mem_singleton_self _
    · exact h.search (isDocumentSearch_documentSearch _) w (congrArg some hw)
  | nullTest field negated => exact .nullTest negated h.field
  | @compare op field t hop =>
    obtain ⟨u, hu⟩ := Value.exists_token?_valueOf s field t
    have hvalue : (s.valueOf field t).Suits s field := by
      refine hsuits rfl ?_
      rw [scalars_of_token? hu rfl]
      exact List.mem_singleton_self _
    cases hsearch : isDocumentSearch { field, operator := op } with
    | true =>
      obtain ⟨rfl, rfl⟩ := isDocumentSearch_eq hop hsearch
      exact .search hvalue fun w hw => h.search hsearch w (congrArg some hw)
    | false =>
      exact .comparison h.field hop hsearch hvalue fun w hw => h.operand w (congrArg some hw)
  | @among op field ts hlist hne =>
    refine .membership h.field hlist (by simp [hne]) fun v hv => ?_
    obtain ⟨t, _, rfl⟩ := List.mem_map.1 hv
    exact hsuits rfl hv

end Rule

namespace Query

variable {s : Schema} {text : String} {p : Parsed}

/-- The text of the tree of a query is a whole query again exactly if no `!` in it makes a keyword
of one of the names `CONTAINS` and `LIKE`, and the tree that it is read as is written as the same
text. -/
theorem parse_toQuery_canonical (hs : s.store = none) (h : (parse s text).value = .ok p)
    (hc : p.isComplete = true) (hrules : ∀ r, .rule r ∈ p.tree.leaves → r.Rewritable s) :
    ((∃ q, (parse s p.tree.toQuery).value = .ok q ∧ q.isComplete = true) ↔
      p.tree.toNode.glues = false) ∧
    (∀ q, (parse s p.tree.toQuery).value = .ok q → q.isComplete = true →
      q.tree.toQuery = p.tree.toQuery) ∧
    (p.tree.toNode.glues = true → Node.NamesKeyword p.tree.leaves) := by
  obtain ⟨e, hspells, hd, rfl⟩ := parseTokens_iff.1 ⟨h, hc⟩
  have hnames := hspells.isRuleSetName
  have hwritable : ∀ r ∈ e.rules s, r.Writable s := by
    intro r hr
    refine (stated_of_mem_rules hspells r hr).writable (hrules r ?_)
    rwa [Expr.leaves_simplify_toTree, Expr.rule_mem_leaves]
  have hproper := Expr.proper_simplify_toTree hwritable hnames
  have hlegible := Node.Proper.mono (fun _ => Rule.Writable.legible) _ hproper
  have hdeep : (e.toTree s).simplify.toNode.nesting none ≤ maxDepth :=
    Nat.le_trans (Expr.nesting_simplify_toTree_le_depth hs hspells) hd
  have htidy : (e.toTree s).simplify.toNode.Tidy :=
    Node.tidy_simplifyAll (Expr.tidy_toTree hs e) (Node.TidyAll.simplifyAll _)
  refine ⟨⟨?_, fun hg => parse_toQuery_complete hlegible hg hdeep⟩, ?_,
    Node.namesKeyword_of_glues _ hproper⟩
  · rintro ⟨q, hq⟩
    exact (parse_toQuery_sound hlegible hq).1
  · intro q hq hqc
    have hg := (parse_toQuery_sound hlegible ⟨hq, hqc⟩).1
    obtain ⟨ts, e', hlex, hspells', htext⟩ := Node.stable_of_tidy hs _ hlegible htidy hg none
    obtain ⟨e'', hspells'', _, rfl⟩ := parseTokens_iff.1 ⟨hq, hqc⟩
    rw [toList_toQuery, hlex.tokenize] at hspells''
    obtain rfl := hspells'.unique hspells''
    calc (e'.toTree s).simplify.toQuery
        = (e'.toTree s).toQuery := RuleSet.toQuery_simplify (Expr.tidy_toTree hs e')
      _ = (e.toTree s).simplify.toQuery := congrArg String.ofList htext

/-- In parentheses, the name `LIKE` can be negated: `a=b & !(LIKE)` is a query. Its tree is written
without them, and that text is none. -/
theorem parse_toQuery_canonical_like :
    let s : Schema := { field? := fun _ => none }
    ∃ p, (parse s "a=b & !(LIKE)").value = .ok p ∧ p.isComplete = true ∧
      (∀ r, .rule r ∈ p.tree.leaves → r.Rewritable s) ∧
      ¬ ∃ q, (parse s p.tree.toQuery).value = .ok q ∧ q.isComplete = true := by
  intro s
  have ha : IsBare ['a'] := .of_all (by decide) (by decide)
  have hb : IsBare ['b'] := .of_all (by decide) (by decide)
  have hlike : IsBare "LIKE".toList := .of_all (by decide) (by decide)
  have htokens : tokenize "a=b & !(LIKE)".toList =
      [⟨.word, "a"⟩, ⟨.operator, "="⟩, ⟨.word, "b"⟩, ⟨.symbol, "&"⟩, ⟨.symbol, "!"⟩, ⟨.symbol, "("⟩,
        ⟨.word, "LIKE"⟩, ⟨.symbol, ")"⟩] := by
    have hsplit : "a=b & !(LIKE)".toList = ['a'] ++ (['='] ++ (['b'] ++
        (Condition.and.joiner.toList ++ '!' :: '(' :: ("LIKE".toList ++ [')'])))) := by decide
    have hends : EndsWord (['='] ++ (['b'] ++
        (Condition.and.joiner.toList ++ '!' :: '(' :: ("LIKE".toList ++ [')'])))) :=
      .cons (by decide) _
    rw [hsplit, tokenize_word ha.isWord hends, tokenize_comparison (by decide) (by decide),
      tokenize_word hb.isWord (closes_joiner _ _).endsWord, tokenize_joiner,
      tokenize_bang (by decide) (by decide +kernel), tokenize_symbol (by decide) (by decide),
      tokenize_word hlike.isWord (Closes.parenthesis []).endsWord,
      tokenize_symbol (by decide) (by decide), tokenize_nil]
    decide
  have hfield : IsWritableField "a" :=
    { isWord := (IsBare.of_all (by decide) (by decide)).isWord
      not_name := by decide +kernel
      no_quote := by decide
      not_keyword := by decide +kernel }
  let e : Expr :=
    .join .and (.clause (.compare "a" "=" ⟨.word, "b"⟩)) (.not (.group (.reference "LIKE")))
  have hname : (⟨.operator, "="⟩ : Token).operatorName = "=" := by decide +kernel
  have hspells : Expr.Spells (.chain .or) (tokenize "a=b & !(LIKE)".toList) e := by
    rw [htokens]
    have hcompare : Expr.Spells .operand [⟨.word, "a"⟩, ⟨.operator, "="⟩, ⟨.word, "b"⟩]
        (.clause (.compare "a" "=" ⟨.word, "b"⟩)) := by
      refine .clause (.comparison (by decide +kernel) rfl ?_)
      rw [hname]
      exact .operand rfl (.literal rfl)
    have hreference : Expr.Spells .operand [⟨.word, "LIKE"⟩] (.reference "LIKE") :=
      .reference (by decide +kernel)
    have hnot : Expr.Spells .operand
        [⟨.symbol, "!"⟩, ⟨.symbol, "("⟩, ⟨.word, "LIKE"⟩, ⟨.symbol, ")"⟩]
        (.not (.group (.reference "LIKE"))) :=
      .not rfl (.group rfl rfl (hreference.ofOperand .or))
    exact .single (.join (hcompare.ofOperand .and) rfl hnot)
  obtain ⟨h, hc⟩ := (parseTokens_iff (s := s)).2 ⟨e, hspells, by decide, rfl⟩
  have hrules : ∀ r, .rule r ∈ (e.toTree s).simplify.leaves → r.Rewritable s := by
    intro r hr
    rw [Expr.leaves_simplify_toTree, Expr.rule_mem_leaves] at hr
    obtain rfl := List.mem_singleton.1 hr
    exact
      { field := hfield
        strings := fun w _ => .inr rfl
        operand := fun w _ => rfl
        search := fun hsearch => absurd hsearch (by decide +kernel) }
  refine ⟨_, h, hc, hrules, fun hq => ?_⟩
  have hglues := (parse_toQuery_canonical rfl h hc hrules).1.1 hq
  exact absurd hglues (by decide +kernel)

end Query

end BoolQuery
