import BoolQuery.Proofs.Validity

/-! The order of a validation. A text or a tree gives rise to a list of single checks, each of which
asks one hook at most, and validating it is running them in turn. The run stops at the first check
that rejects: the checks behind it add nothing to the log, so their hooks are not called. -/

namespace BoolQuery

/-- A step is run on the value of the one before it, and its events come after that one's. -/
theorem Logged.bind_eq {α β : Type} (x : Logged α) (f : α → Logged β) :
    x >>= f = ⟨(f x.value).value, x.log ++ (f x.value).log⟩ := rfl

namespace Check

variable {first : Check} {second : Unit → Check} {reason : Rejection}

theorem thenCheck_of_accepts (h : first.value = none) :
    first.thenCheck second = ⟨(second ()).value, first.log ++ (second ()).log⟩ := by
  obtain ⟨value, log⟩ := first
  obtain rfl : value = none := h
  rfl

theorem thenCheck_of_rejects (h : first.value = some reason) : first.thenCheck second = first := by
  obtain ⟨value, log⟩ := first
  obtain rfl : value = some reason := h
  exact congrArg (Logged.mk (some reason)) (List.append_nil log)

theorem thenCheck_accept (c : Check) : (c.thenCheck fun _ => accept) = c := by
  cases h : c.value with
  | none =>
    rw [thenCheck_of_accepts h, accept, Logged.log_pure, List.append_nil, Logged.value_pure, ← h]
  | some reason => exact thenCheck_of_rejects h

theorem thenCheck_assoc (c : Check) (f g : Unit → Check) :
    ((c.thenCheck f).thenCheck g) = c.thenCheck fun u => (f u).thenCheck g := by
  cases h : c.value with
  | some reason => rw [thenCheck_of_rejects h, thenCheck_of_rejects h, thenCheck_of_rejects h]
  | none =>
    rw [thenCheck_of_accepts h, thenCheck_of_accepts h]
    cases hf : (f ()).value with
    | none =>
      rw [thenCheck_of_accepts rfl, thenCheck_of_accepts hf]
      exact congrArg (Logged.mk _) (List.append_assoc _ _ _)
    | some reason =>
      rw [thenCheck_of_rejects hf, hf]
      exact thenCheck_of_rejects rfl

/-- Checks one after the other, up to the first that rejects. -/
def inTurn : List Check → Check
  | [] => accept
  | c :: cs => c.thenCheck fun _ => inTurn cs

theorem inTurn_append (cs ds : List Check) :
    inTurn (cs ++ ds) = (inTurn cs).thenCheck fun _ => inTurn ds := by
  induction cs with
  | nil => rfl
  | cons c cs ih => rw [List.cons_append, inTurn, inTurn, thenCheck_assoc, ih]

/-- What running checks in turn comes to: the reports of all of them, or of those up to the first
that rejects, and then its rejection. -/
inductive RunsTo (cs : List Check) (v : Logged Bool) : Prop
  | accepted (passed : ∀ c ∈ cs, c.value = none) (value : v.value = true)
      (log : v.log = cs.flatMap (·.log))
  | refused (passed : List Check) (failed : Check) (left : List Check) (reason : Rejection)
      (order : cs = passed ++ failed :: left) (passes : ∀ c ∈ passed, c.value = none)
      (fails : failed.value = some reason) (value : v.value = false)
      (log : v.log = passed.flatMap (·.log) ++ failed.log ++ [.rejected reason])

theorem runsTo_verdict (cs : List Check) : RunsTo cs (inTurn cs).verdict := by
  induction cs with
  | nil => exact .accepted (by simp) rfl rfl
  | cons c cs ih =>
    cases h : c.value with
    | some reason =>
      rw [inTurn, thenCheck_of_rejects h]
      exact .refused [] c cs reason rfl (by simp) h (by simp [h]) (by simp [log_verdict, h])
    | none =>
      have hlog : (inTurn (c :: cs)).verdict.log = c.log ++ (inTurn cs).verdict.log := by
        simp only [inTurn, thenCheck_of_accepts h, log_verdict, List.append_assoc]
      have hvalue : (inTurn (c :: cs)).verdict.value = (inTurn cs).verdict.value := by
        simp only [inTurn, thenCheck_of_accepts h, value_verdict]
      cases ih with
      | accepted passed value log =>
        refine .accepted (List.forall_mem_cons.2 ⟨h, passed⟩) (hvalue.trans value) ?_
        rw [hlog, log, List.flatMap_cons]
      | refused passed failed left reason order passes fails value log =>
        refine .refused (c :: passed) failed left reason (congrArg (c :: ·) order)
          (List.forall_mem_cons.2 ⟨h, passes⟩) fails (hvalue.trans value) ?_
        rw [hlog, log, List.flatMap_cons]
        simp only [List.append_assoc]

end Check

namespace Schema

/-- The single checks of a rule where it stands. -/
def checksOfRule (s : Schema) (o : Occurrence) : List Check :=
  match s.field? o.rule.field with
  | none => [Check.reject (.unknownField o.rule.field)]
  | some f =>
    [s.checkOperator f o.rule, checkPresence o.rule, checkList o.rule, checkAccepted f o,
      checkValidator f o, s.checkEntity o.rule, s.checkType f o.rule]

mutual

/-- The single checks of a node that stands in the ruleset `enclosing`: that of a ruleset's header
before those of its children. -/
def checksOfNode (s : Schema) (enclosing : RuleSet) : Node → List Check
  | .rule r => s.checksOfRule ⟨r, enclosing⟩
  | .group h kids => s.checkHeader h kids.isEmpty :: s.checksOfNodes ⟨h, kids⟩ kids

def checksOfNodes (s : Schema) (enclosing : RuleSet) : List Node → List Check
  | [] => []
  | n :: ns => s.checksOfNode enclosing n ++ s.checksOfNodes enclosing ns

end

/-- The single checks of a tree. -/
def checks (s : Schema) (t : RuleSet) : List Check := s.checksOfNode t t.toNode

/-- The check that a text is a query from its start to its end, which looks up its references. -/
def checkSyntax (s : Schema) (text : String) : Check := do
  match ← Query.parse s text with
  | .error error => Check.reject (.notParsed error)
  | .ok parsed => Check.require parsed.isComplete (.trailingInput parsed.consumed parsed.total)

/-- The single checks of a text: that of its syntax, then those of the tree that it is read as. -/
def checksOfText (s : Schema) (text : String) : List Check :=
  s.checkSyntax text :: match (Query.parse s text).value with
    | .error _ => []
    | .ok parsed => s.checks parsed.tree

variable {s : Schema} {c : Check} {enclosing t : RuleSet} {text : String}

/-- The checks of a rule: that its field is known, or else what they are asked of its field. -/
theorem mem_checksOfRule {o : Occurrence} (hc : c ∈ s.checksOfRule o) :
    c = Check.reject (.unknownField o.rule.field) ∨
      ∃ f, s.field? o.rule.field = some f ∧
        (c = s.checkOperator f o.rule ∨ c = checkPresence o.rule ∨ c = checkList o.rule ∨
          c = checkAccepted f o ∨ c = checkValidator f o ∨ c = s.checkEntity o.rule ∨
          c = s.checkType f o.rule) := by
  unfold checksOfRule at hc
  cases hf : s.field? o.rule.field with
  | none =>
    rw [hf] at hc
    exact .inl (List.mem_singleton.1 hc)
  | some f =>
    rw [hf] at hc
    exact .inr ⟨f, rfl, by simpa using hc⟩

theorem checkRule_eq_inTurn (o : Occurrence) :
    s.checkRule o = Check.inTurn (s.checksOfRule o) := by
  cases hf : s.field? o.rule.field with
  | none => simp only [checkRule, checksOfRule, hf, Check.inTurn, Check.thenCheck_accept]
  | some f => simp only [checkRule, checksOfRule, hf, Check.inTurn, Check.thenCheck_accept]

mutual

theorem checkNode_eq_inTurn (enclosing : RuleSet) : (n : Node) →
    s.checkNode enclosing n = Check.inTurn (s.checksOfNode enclosing n)
  | .rule r => checkRule_eq_inTurn ⟨r, enclosing⟩
  | .group h kids => by
    rw [checkNode, checksOfNode, Check.inTurn, checkNodes_eq_inTurn ⟨h, kids⟩ kids]

theorem checkNodes_eq_inTurn (enclosing : RuleSet) : (ns : List Node) →
    s.checkNodes enclosing ns = Check.inTurn (s.checksOfNodes enclosing ns)
  | [] => rfl
  | n :: ns => by
    rw [checkNodes, checksOfNodes, Check.inTurn_append, checkNode_eq_inTurn enclosing n,
      checkNodes_eq_inTurn enclosing ns]

end

theorem checkRuleSet_eq_inTurn (t : RuleSet) : s.checkRuleSet t = Check.inTurn (s.checks t) :=
  checkNode_eq_inTurn t t.toNode

theorem checkText_eq_inTurn (text : String) :
    s.checkText text = Check.inTurn (s.checksOfText text) := by
  simp only [checkText, checksOfText, checkSyntax, Check.inTurn, Logged.bind_eq]
  obtain ⟨value, log⟩ := Query.parse s text
  cases value with
  | error error => exact (Check.thenCheck_accept _).symm
  | ok p =>
    simp only [← checkRuleSet_eq_inTurn]
    cases hc : p.isComplete with
    | true => simp [Check.require, Check.accept, Check.thenCheck_of_accepts]
    | false => simp [Check.require, Check.reject, Check.thenCheck_of_rejects]

/-- Validating a tree runs its checks. -/
theorem runsTo_validateRuleSet (s : Schema) (t : RuleSet) :
    Check.RunsTo (s.checks t) (s.validateRuleSet t) := by
  rw [validateRuleSet, checkRuleSet_eq_inTurn]
  exact Check.runsTo_verdict _

/-- Validating a text runs its checks. -/
theorem runsTo_validateText (s : Schema) (text : String) :
    Check.RunsTo (s.checksOfText text) (s.validateText text) := by
  rw [validateText, checkText_eq_inTurn]
  exact Check.runsTo_verdict _

mutual

theorem mem_checksOfNode (enclosing : RuleSet) : (n : Node) → c ∈ s.checksOfNode enclosing n →
    (∃ o ∈ n.occurrences enclosing, c ∈ s.checksOfRule o) ∨
      ∃ u ∈ n.rulesets, c = s.checkHeader u.toHeader u.children.isEmpty
  | .rule r => fun hc => .inl ⟨_, List.mem_singleton_self _, hc⟩
  | .group h kids => fun hc => by
    obtain rfl | hc := List.mem_cons.1 hc
    · exact .inr ⟨_, List.mem_cons_self, rfl⟩
    · obtain hrule | ⟨u, hu, rfl⟩ := mem_checksOfNodes ⟨h, kids⟩ kids hc
      · exact .inl hrule
      · exact .inr ⟨u, List.mem_cons_of_mem _ hu, rfl⟩

theorem mem_checksOfNodes (enclosing : RuleSet) : (ns : List Node) →
    c ∈ s.checksOfNodes enclosing ns →
    (∃ o ∈ Node.occurrencesOfAll enclosing ns, c ∈ s.checksOfRule o) ∨
      ∃ u ∈ Node.rulesetsOfAll ns, c = s.checkHeader u.toHeader u.children.isEmpty
  | [] => fun hc => by cases hc
  | n :: ns => fun hc => by
    simp only [Node.occurrencesOfAll, Node.rulesetsOfAll, List.mem_append]
    obtain hc | hc := List.mem_append.1 hc
    · exact (mem_checksOfNode enclosing n hc).imp (fun ⟨o, ho, h⟩ => ⟨o, .inl ho, h⟩)
        fun ⟨u, hu, h⟩ => ⟨u, .inl hu, h⟩
    · exact (mem_checksOfNodes enclosing ns hc).imp (fun ⟨o, ho, h⟩ => ⟨o, .inr ho, h⟩)
        fun ⟨u, hu, h⟩ => ⟨u, .inr hu, h⟩

end

/-- A check of a tree is one of a rule in it or of a ruleset's header. -/
theorem mem_checks (hc : c ∈ s.checks t) : (∃ o ∈ t.occurrences, c ∈ s.checksOfRule o) ∨
    ∃ u ∈ t.rulesets, c = s.checkHeader u.toHeader u.children.isEmpty :=
  mem_checksOfNode t t.toNode hc

end Schema

end BoolQuery
