import BoolQuery.Proofs.Explanations
import BoolQuery.Proofs.Query.Retyping
import BoolQuery.Proofs.Query.TreeHeight
import BoolQuery.Proofs.RuleSet.Parts

/-! The form of trees that were read where no rulesets are stored. It is a demand on each ruleset by
itself, which holds of the rulesets of a joined tree if it holds of those of the operands. A ruleset
of a simplified tree is a simplified ruleset of the tree, so simplifying keeps the demand, and
leaves no wrapper besides. Validating a tree of this form finds no fault in its form. -/

namespace BoolQuery

namespace Rule

/-- A rule as it can be read: it has a value unless it is a null test, and a list only where the
operator takes one. -/
structure WellFormed (r : Rule) : Prop where
  entity : r.entity = none
  presence : r.value = none ↔ isNullTest r.operator = true
  listed : ∀ vs, r.value = some (.list vs) →
    isListOperator r.operator = true ∧ vs ≠ [] ∧ ∀ v ∈ vs, v.IsScalar
  finite : ∀ x, .number x ∈ r.scalars → x.isFinite = true

variable {s : Schema} {r : Rule} {op : String}

theorem isFinite_of_valueOf {field : String} {t : Query.Token} {x : Numeric.Double}
    (h : s.valueOf field t = .number x) : x.isFinite = true := by
  rcases Value.valueOf_cases s field t with ht | ⟨_, _, ⟨y, _, hy, ht⟩ | ⟨_, _, ht⟩ | ⟨_, _, ht⟩⟩
  · cases ht.symm.trans h
  · obtain rfl : y = x := Value.number.inj (ht.symm.trans h)
    exact hy
  · cases ht.symm.trans h
  · cases ht.symm.trans h

theorem isNullTest_of_isOperator (h : Query.IsOperator op) : isNullTest op = false := by
  refine h.of_forall (by decide) fun op hword => Bool.eq_false_iff.2 fun hnull => ?_
  obtain rfl | rfl : op = "is null" ∨ op = "is not null" := by
    simpa [isNullTest, nullTests] using hnull
  all_goals exact absurd hword (by decide)

theorem isNullTest_of_isListOperator (h : isListOperator op = true) : isNullTest op = false :=
  isNullTest_of_isOperator (Query.isOperator_of_isListOperator h)

/-- A rule that compares its field with a single literal. -/
theorem wellFormed_literal (hnull : isNullTest op = false) (field field' : String)
    (t : Query.Token) :
    WellFormed { field, operator := op, value := some (s.valueOf field' t) } := by
  have hscalar := Value.isScalar_valueOf s field' t
  refine ⟨rfl, by simp [hnull], fun vs hvs => ?_, fun x hx => ?_⟩
  · rw [Option.some.inj hvs] at hscalar
    cases hscalar
  · obtain ⟨u, hu⟩ := Value.exists_token?_valueOf s field' t
    rw [scalars_of_token? hu rfl] at hx
    exact isFinite_of_valueOf (List.mem_singleton.1 hx).symm

theorem Stated.wellFormed (h : r.Stated s) : r.WellFormed := by
  cases h with
  | search t => exact wellFormed_literal (by decide) documentField documentField t
  | nullTest field negated =>
    have hnull : isNullTest (Rule.nullTest field negated).operator = true := by
      cases negated <;> rfl
    exact ⟨rfl, ⟨fun _ => hnull, fun _ => rfl⟩, nofun, nofun⟩
  | compare field t hop => exact wellFormed_literal (isNullTest_of_isOperator hop) field field t
  | @among op field ts hlist hne =>
    refine ⟨rfl, by simp [isNullTest_of_isListOperator hlist], ?_, ?_⟩
    · rintro vs hvs
      obtain rfl := Value.list.inj (Option.some.inj hvs)
      refine ⟨hlist, by simpa using hne, fun v hv => ?_⟩
      obtain ⟨t, _, rfl⟩ := List.mem_map.1 hv
      exact Value.isScalar_valueOf s field t
    · intro x hx
      obtain ⟨t, _, ht⟩ := List.mem_map.1 hx
      exact isFinite_of_valueOf ht

end Rule

namespace RuleSet
open Node

/-- A ruleset as it can be read, whatever the rulesets inside it are. -/
structure WellFormed (u : RuleSet) : Prop where
  named : ∀ name, u.name = some name → u.children = [] ∧ Query.isRuleSetName name = true
  filled : u.name = none → u.children ≠ []
  single : ∀ n, u.name = none → u.children = [n] → u.condition = .and ∧ ∃ r, n = .rule r
  grouped : u.condition = .and → ∀ h kids, .group h kids ∈ u.children → h.condition = .or →
    h.parenthesized = true
  negated : u.negated = true → 2 ≤ u.children.length → u.parenthesized = true
  rules : ∀ r, .rule r ∈ u.children → r.WellFormed

variable {c : Condition} {l r t u : RuleSet}

theorem WellFormed.negate (ht : t.WellFormed)
    (hmany : 2 ≤ t.children.length → t.parenthesized = true) (b : Bool) :
    WellFormed { t with negated := b } :=
  ⟨ht.named, ht.filled, ht.single, ht.grouped, fun _ => hmany, ht.rules⟩

theorem WellFormed.parenthesize (ht : t.WellFormed) : WellFormed { t with parenthesized := true } :=
  ⟨ht.named, ht.filled, ht.single, ht.grouped, fun _ _ => rfl, ht.rules⟩

theorem wellFormed_ofRule {r : Rule} (hr : r.WellFormed) : (ofRule r).WellFormed := by
  refine ⟨nofun, fun _ => List.cons_ne_nil _ _, ?_, ?_, nofun, ?_⟩
  · intro n _ hn
    exact ⟨rfl, r, (List.singleton_inj.1 hn).symm⟩
  · intro _ h kids hmem
    cases List.mem_singleton.1 hmem
  · intro q hq
    cases List.mem_singleton.1 hq
    exact hr

theorem wellFormed_reference {name : String} (hname : Query.isRuleSetName name = true) :
    (reference name).WellFormed := by
  refine ⟨?_, nofun, fun _ => nofun, fun _ _ _ => nofun, nofun, fun _ => nofun⟩
  intro name' heq
  obtain rfl : name = name' := Option.some.inj heq
  exact ⟨rfl, hname⟩

theorem WellFormed.not_group_mem (hu : u.WellFormed) (hname : u.name = none)
    (hlength : u.children.length = 1) {h : Header} {kids : List Node} :
    .group h kids ∉ u.children := by
  obtain ⟨n, hn⟩ := List.length_eq_one_iff.1 hlength
  obtain ⟨_, r, rfl⟩ := hu.single n hname hn
  simp [hn]

/-- Under `and` the operands are joined as they are read: an `or` stands in parentheses. -/
theorem Merges.grouped (h : Merges c l r t) (hl : l.WellFormed) (hr : r.WellFormed)
    (hlor : l.condition = .or → l.parenthesized = true)
    (hror : r.condition = .or → r.parenthesized = true) (hc : c = .and) {h' : Header}
    {kids : List Node} (hmem : .group h' kids ∈ t.children) (hor : h'.condition = .or) :
    h'.parenthesized = true := by
  have hnode {v : RuleSet} (hv : v.condition = .or → v.parenthesized = true)
      (heq : .group h' kids = v.toNode) : h'.parenthesized = true := by
    cases heq
    exact hv hor
  have hplain {v : RuleSet} (hp : v.isPlain = true) : v.name = none :=
    (Header.isPlain_iff.1 hp).2.1
  cases h with
  | spliced hpl hpr hlc hrc =>
    obtain hmem | hmem := List.mem_append.1 hmem
    · exact hl.grouped (hlc.trans hc) _ _ hmem hor
    · obtain hrc | hr1 := hrc
      · exact hr.grouped (hrc.trans hc) _ _ hmem hor
      · exact absurd hmem (hr.not_group_mem (hplain hpr) hr1)
  | grafted hpl hlc =>
    obtain hmem | hmem := List.mem_append.1 hmem
    · exact hl.grouped (hlc.trans hc) _ _ hmem hor
    · exact hnode hror (List.mem_singleton.1 hmem)
  | unwrapped hpl hpr hl1 hr1 =>
    obtain hmem | hmem := List.mem_append.1 hmem
    · exact absurd hmem (hl.not_group_mem (hplain hpl) hl1)
    · exact absurd hmem (hr.not_group_mem (hplain hpr) hr1)
  | paired =>
    obtain hmem | hmem := List.mem_cons.1 hmem
    · exact hnode hlor hmem
    · exact hnode hror (List.mem_singleton.1 hmem)

theorem Merges.rule_mem (h : Merges c l r t) {q : Rule} (hq : .rule q ∈ t.children) :
    .rule q ∈ l.children ∨ .rule q ∈ r.children := by
  cases h with
  | spliced | unwrapped => exact List.mem_append.1 hq
  | grafted =>
    obtain hq | hq := List.mem_append.1 hq
    · exact .inl hq
    · cases List.mem_singleton.1 hq
  | paired => simp [ofChildren, toNode] at hq

theorem Merges.wellFormed (h : Merges c l r t) (hl : l.WellFormed) (hr : r.WellFormed)
    (hand : c = .and → (l.condition = .or → l.parenthesized = true) ∧
      (r.condition = .or → r.parenthesized = true)) : t.WellFormed := by
  obtain ⟨hneg, hname, _⟩ := Header.isPlain_iff.1 h.isPlain
  have hlength := h.two_le_length (fun hp => hl.filled (Header.isPlain_iff.1 hp).2.1)
    fun hp => hr.filled (Header.isPlain_iff.1 hp).2.1
  constructor
  case named => exact fun name hname' => nomatch hname.symm.trans hname'
  case filled => exact fun _ => List.ne_nil_of_length_pos (by omega)
  case single =>
    intro n _ hn
    rw [hn, List.length_singleton] at hlength
    omega
  case grouped =>
    intro hcond h' kids
    have hc : c = .and := h.condition_eq.symm.trans hcond
    exact h.grouped hl hr (hand hc).1 (hand hc).2 hc
  case negated => exact fun hneg' => nomatch hneg.symm.trans hneg'
  case rules => exact fun q hq => (h.rule_mem hq).elim (hl.rules q) (hr.rules q)

/-- A well-formed ruleset gives way only to a rule. -/
theorem WellFormed.simplify_cases {h : Header} {kids : List Node}
    (hu : WellFormed ⟨h, kids⟩) : (∃ r, kids = [.rule r] ∧ (group h kids).simplify = .rule r) ∨
      (group h kids).simplify = group h (simplifyAll kids) := by
  rw [Node.simplify]
  refine (unwrap_cases h (simplifyAll kids)).imp_left ?_
  rintro ⟨only, honly, hp, hsimp⟩
  have hname := (Header.isPlain_iff.1 (Header.isPlainAnd_iff.1 hp).1).2.1
  have hlength := length_simplifyAll kids
  rw [honly, List.length_singleton] at hlength
  obtain ⟨n, rfl⟩ := List.length_eq_one_iff.1 hlength.symm
  obtain ⟨_, r, rfl⟩ := hu.single n hname rfl
  exact ⟨r, rfl, hsimp.trans (List.singleton_inj.1 honly).symm⟩

theorem WellFormed.simplify (hu : ∀ v ∈ u.rulesets, v.WellFormed) : u.simplify.WellFormed := by
  have hself := hu u List.mem_cons_self
  have hchild {h : Header} {kids : List Node} (hmem : .group h kids ∈ u.children) :
      WellFormed ⟨h, kids⟩ :=
    hu _ (List.mem_cons_of_mem _ (mem_rulesetsOfAll hmem List.mem_cons_self))
  have hlength := length_simplifyAll u.children
  constructor
  case named =>
    intro name hname
    obtain ⟨hkids, hform⟩ := hself.named name hname
    exact ⟨by rw [RuleSet.simplify, hkids]; rfl, hform⟩
  case filled => exact fun hname => simplifyAll_ne_nil (hself.filled hname)
  case single =>
    intro n hname hn
    obtain ⟨m, hm⟩ := List.length_eq_one_iff.1 (hlength.symm.trans (congrArg List.length hn))
    obtain ⟨hcond, r, rfl⟩ := hself.single m hname hm
    rw [RuleSet.simplify, hm] at hn
    exact ⟨hcond, r, (List.singleton_inj.1 hn).symm⟩
  case grouped =>
    intro hcond h kids hmem hor
    obtain ⟨m, hm, heq⟩ := mem_simplifyAll.1 hmem
    cases m with
    | rule r => cases heq
    | group h' kids' =>
      obtain ⟨r, _, hsimp⟩ | hsimp := (hchild hm).simplify_cases
      · cases hsimp.symm.trans heq
      · obtain ⟨rfl, _⟩ := Node.group.inj (hsimp.symm.trans heq)
        exact hself.grouped hcond _ _ hm hor
  case negated => exact fun hneg hlen => hself.negated hneg (hlength ▸ hlen)
  case rules =>
    intro r hr
    obtain ⟨m, hm, heq⟩ := mem_simplifyAll.1 hr
    cases m with
    | rule r' =>
      cases heq
      exact hself.rules r hm
    | group h kids =>
      obtain ⟨r', rfl, hsimp⟩ | hsimp := (hchild hm).simplify_cases
      · cases hsimp.symm.trans heq
        exact (hchild hm).rules r List.mem_cons_self
      · cases hsimp.symm.trans heq

end RuleSet

namespace Query
open RuleSet

variable {s : Schema} {text : String} {p : Parsed}

namespace Expr

/-- The tree of an expression of a level: joined operands have no mark of their own, so what has
several children and is an operand stands in parentheses, and so does an `or` that is not joined
by `or`. -/
structure WellPlaced (level : Level) (t : RuleSet) : Prop where
  rulesets : ∀ u ∈ t.rulesets, u.WellFormed
  grouped : level ≠ .chain .or → t.condition = .or → t.parenthesized = true
  several : level = .operand → 2 ≤ t.children.length → t.parenthesized = true

variable {level : Level} {t : RuleSet}

theorem WellPlaced.wellFormed (h : WellPlaced level t) : t.WellFormed :=
  h.rulesets t List.mem_cons_self

/-- Another header changes no ruleset inside the tree. -/
theorem WellPlaced.inner {u : RuleSet} (h : WellPlaced level t) (hkids : u.children = t.children)
    (hu : u.WellFormed) : ∀ v ∈ u.rulesets, v.WellFormed := by
  intro v hv
  obtain rfl | hv := List.mem_cons.1 hv
  · exact hu
  · exact h.rulesets v (List.mem_cons_of_mem _ (hkids ▸ hv))

theorem wellPlaced_toTree (hs : s.store = none) {ts : List Token} {e : Expr}
    (h : Spells level ts e) (hrules : ∀ r ∈ e.rules s, r.WellFormed) :
    WellPlaced level (e.toTree s) := by
  induction h with
  | @clause ts c =>
    have hr : (c.toRule s).WellFormed := hrules _ (List.mem_singleton_self _)
    have hlength : ¬2 ≤ [Node.rule (c.toRule s)].length := Nat.not_succ_le_self 1
    refine ⟨fun u hu => ?_, fun _ => nofun, fun _ h => absurd h hlength⟩
    obtain rfl := List.mem_singleton.1 hu
    exact wellFormed_ofRule hr
  | @reference t ht =>
    rw [toTree_reference hs]
    refine ⟨fun u hu => ?_, fun _ => nofun, fun _ h => absurd h (Nat.not_succ_le_zero 1)⟩
    obtain rfl := List.mem_singleton.1 hu
    exact wellFormed_reference (Bool.and_eq_true_iff.1 ht).2
  | not _ _ ih =>
    rw [toTree_not hs]
    have hp := ih hrules
    have hroot := hp.wellFormed.negate (hp.several rfl)
    exact ⟨hp.inner rfl (hroot _), hp.grouped, hp.several⟩
  | group _ _ _ ih =>
    have hp := ih hrules
    exact ⟨hp.inner rfl hp.wellFormed.parenthesize, fun _ _ => rfl, fun _ _ => rfl⟩
  | @single c _ _ _ ih =>
    have hp := ih hrules
    refine ⟨hp.rulesets, fun hlevel => hp.grouped ?_, nofun⟩
    cases c with
    | and => decide
    | or => exact absurd rfl hlevel
  | @join c _ _ _ l r _ _ _ ihl ihr =>
    have hl := ihl fun q hq => hrules q (List.mem_append_left _ hq)
    have hr := ihr fun q hq => hrules q (List.mem_append_right _ hq)
    have hm := merges_merge c (l.toTree s) (r.toTree s)
    have hroot := hm.wellFormed hl.wellFormed hr.wellFormed fun hc => by
      subst hc
      exact ⟨hl.grouped (by decide), hr.grouped (by decide)⟩
    refine ⟨fun u hu => ?_, fun hlevel hor => ?_, nofun⟩
    · obtain rfl | hu | hu := hm.mem_rulesets hu
      · exact hroot
      · exact hl.rulesets u hu
      · exact hr.rulesets u hu
    · exact absurd (congrArg Level.chain (hm.condition_eq.symm.trans hor)) hlevel

/-- What is read is well-formed, as far as the text is a query. -/
theorem wellFormed_of_spells (hs : s.store = none) {ts : List Token} {e : Expr}
    (h : Spells (.chain .or) ts e) (hformed : ∀ t ∈ ts, t.IsFormed) :
    ∀ u ∈ (e.toTree s).rulesets, u.WellFormed := by
  refine (wellPlaced_toTree hs h fun r hr => ?_).rulesets
  obtain ⟨c, us, hc, hus, rfl⟩ := h.exists_clause hr
  exact (Rule.stated_of_spells hc fun t ht => hformed t (hus.subset ht)).wellFormed

end Expr

end Query

namespace Rejection

/-- The messages of the faults that show in the form of a tree, whatever the schema. -/
def formMessages : List String := ["empty ruleset", "missing value", "null test carries a value"]

def isOfForm : Rejection → Bool
  | emptyRuleSet | missingValue _ _ | nullTestWithValue _ _ => true
  | _ => false

theorem message_mem_formMessages_iff {reason : Rejection} :
    reason.message ∈ formMessages ↔ reason.isOfForm = true := by
  cases reason <;> simp [message, formMessages, isOfForm]

end Rejection

theorem Event.message_notMem_formMessages {e : Event} (h : e.tellsFailure = true) :
    e.message ∉ Rejection.formMessages := by
  cases e with
  | lookupFailed | overrideFailed | sourceFailed => simp [message, Rejection.formMessages]
  | tokenized | rejected | report => cases h

namespace Schema

variable {s : Schema} {c : Check} {o : Occurrence} {t u : RuleSet} {reason : Rejection} {e : Event}

/-- A demand can only be rejected for its one reason. -/
theorem isOfForm_of_require {ok : Bool} {only : Rejection} (honly : only.isOfForm = false)
    (h : (Check.require ok only).value = some reason) : reason.isOfForm = false := by
  cases ok with
  | true => cases h
  | false => exact Option.some.inj h ▸ honly

theorem isOfForm_of_checkValidator {f : Field} (h : (checkValidator f o).value = some reason) :
    reason.isOfForm = false := by
  unfold checkValidator at h
  split at h
  · cases h
  · rw [Logged.value_bind] at h
    split at h
    · cases h
    all_goals
      cases h
      rfl

/-- A rule that has a value where it needs one is rejected for what the schema says of it. -/
theorem isOfForm_of_mem_checksOfRule (ho : o.rule.WellFormed) (hc : c ∈ s.checksOfRule o)
    (h : c.value = some reason) : reason.isOfForm = false := by
  have hpresence := presence_iff.2 ho.presence
  obtain rfl | ⟨f, _, rfl | rfl | rfl | rfl | rfl | rfl | rfl⟩ := mem_checksOfRule hc
  · obtain rfl := Option.some.inj h
    rfl
  · rw [checkOperator, Logged.value_bind] at h
    exact isOfForm_of_require rfl h
  · cases hpresence.symm.trans h
  · exact isOfForm_of_require rfl h
  · rw [checkAccepted, Logged.value_bind] at h
    exact isOfForm_of_require rfl h
  · exact isOfForm_of_checkValidator h
  · unfold checkEntity at h
    split at h
    · exact isOfForm_of_require rfl h
    · cases h
  · exact isOfForm_of_require rfl h

/-- A ruleset that has children unless it is named is rejected for its name alone. -/
theorem isOfForm_of_checkHeader (hu : u.WellFormed)
    (h : (s.checkHeader u.toHeader u.children.isEmpty).value = some reason) :
    reason.isOfForm = false := by
  unfold checkHeader at h
  split at h
  · rw [Logged.value_bind] at h
    exact isOfForm_of_require rfl h
  · rename_i hname
    rw [List.isEmpty_eq_false_iff.2 (hu.filled hname), Bool.not_false, Bool.or_true] at h
    cases h

theorem isOfForm_of_mem_checks (ht : ∀ u ∈ t.rulesets, u.WellFormed) (hc : c ∈ s.checks t)
    (h : c.value = some reason) : reason.isOfForm = false := by
  obtain ⟨o, ho, hc⟩ | ⟨u, hu, rfl⟩ := mem_checks hc
  · obtain ⟨henclosing, hrule⟩ := RuleSet.mem_occurrences_iff.1 ho
    exact isOfForm_of_mem_checksOfRule ((ht _ henclosing).rules _ hrule) hc h
  · exact isOfForm_of_checkHeader (ht u hu) h

/-- Validating a well-formed tree tells of no fault in its form, as far as no hook does. -/
theorem reports_of_formMessages (ht : ∀ u ∈ t.rulesets, u.WellFormed)
    (he : e ∈ (s.validateRuleSet t).log) (hmessage : e.message ∈ Rejection.formMessages) :
    s.Reports e := by
  have hcheck {c : Check} (hc : c ∈ s.checks t) (he : e ∈ c.log) : s.Reports e :=
    (tells_of_mem_checks hc he).resolve_right fun hfail =>
      Event.message_notMem_formMessages hfail hmessage
  cases runsTo_validateRuleSet s t with
  | accepted passed value log =>
    rw [log] at he
    obtain ⟨c, hc, he⟩ := List.mem_flatMap.1 he
    exact hcheck hc he
  | refused passed failed left reason order passes fails value log =>
    rw [log, List.mem_append, List.mem_append] at he
    obtain (he | he) | he := he
    · obtain ⟨c, hc, he⟩ := List.mem_flatMap.1 he
      exact hcheck (by simp [order, hc]) he
    · exact hcheck (by simp [order]) he
    · obtain rfl := List.mem_singleton.1 he
      have hfailed : failed ∈ s.checks t := by simp [order]
      have hform := isOfForm_of_mem_checks ht hfailed fails
      exact nomatch hform.symm.trans (Rejection.message_mem_formMessages_iff.1 hmessage)

end Schema

namespace Query
open RuleSet

variable {s : Schema} {text : String} {p : Parsed}

/-- The tree of a text, of which some may be left over, is well-formed at every depth and holds no
wrappers. Validating it, under whatever schema, finds no fault in its form. -/
theorem parse_wellFormed (hs : s.store = none) (h : (parse s text).value = .ok p) :
    (∀ u ∈ p.tree.rulesets, u.WellFormed ∧ u.Unwrapped) ∧
      ∀ (s' : Schema), ∀ e ∈ (s'.validateRuleSet p.tree).log,
        e.message ∈ Rejection.formMessages → s'.Reports e := by
  obtain ⟨e, hspells, _, htree⟩ := spells_of_parse h
  have hformed : ∀ t ∈ (tokenize text.toList).take p.consumed, t.IsFormed :=
    fun t ht => isFormed_of_mem_tokenize (List.mem_of_mem_take ht)
  have hwhole := Expr.wellFormed_of_spells hs hspells hformed
  have hwell : ∀ u ∈ p.tree.rulesets, u.WellFormed := by
    intro u hu
    rw [htree] at hu
    obtain ⟨v, hv, rfl⟩ := exists_of_mem_rulesets_simplify hu
    exact .simplify fun w hw => hwhole w (Node.rulesets_trans _ hv hw)
  refine ⟨fun u hu => ⟨hwell u hu, ?_⟩, fun s' e he => Schema.reports_of_formMessages hwell he⟩
  rw [htree] at hu
  exact unwrapped_simplify hu

/-- Of `!(A | b=x) & c )` the last token is left over; the tree of the others is well-formed. -/
theorem parse_wellFormed_incomplete :
    let s : Schema := { field? := fun _ => none }
    ∃ p, s.store = none ∧ (parse s "!(A | b=x) & c )").value = .ok p ∧ p.isComplete = false ∧
      (∀ u ∈ p.tree.rulesets, u.WellFormed ∧ u.Unwrapped) ∧
        ∀ (s' : Schema), ∀ e ∈ (s'.validateRuleSet p.tree).log,
          e.message ∈ Rejection.formMessages → s'.Reports e := by
  intro s
  have hread : (parse s "!(A | b=x) & c )").value.map (·.isComplete) = .ok false := by
    decide +kernel
  obtain ⟨p, hp, hrest⟩ := exists_of_map_eq_ok hread
  exact ⟨p, rfl, hp, hrest, parse_wellFormed rfl hp⟩

end Query

end BoolQuery
