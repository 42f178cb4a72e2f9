import BoolQuery.Proofs.CheckOrder

/-! What a validation logs. Besides what the hooks report of themselves, a check tells only of hooks
that failed, so the one event of a validation that tells of a rejection is the rejection itself. It
is the last event, and is there exactly if the verdict is negative. -/

namespace BoolQuery

namespace Rejection

def messages : List String :=
  ["bql does not parse", "bql has trailing input", "named ruleset does not resolve",
    "empty ruleset", "unknown field", "operator not allowed", "null test carries a value",
    "missing value", "IN operator needs a non-empty list", "value outside allowed values",
    "rejected by field validator", "field validator failed", "unknown entity",
    "value does not match field type"]

theorem message_mem (reason : Rejection) : reason.message ∈ messages := by
  cases reason <;> simp [message, messages]

end Rejection

namespace Event

/-- Whether an event tells of a rejection, whoever it is from. -/
def tellsRejection (e : Event) : Bool := Rejection.messages.contains e.message

/-- Whether an event tells of a hook that failed and was passed over. -/
def tellsFailure : Event → Bool
  | lookupFailed _ _ | overrideFailed _ _ | sourceFailed _ _ => true
  | tokenized _ | rejected _ | report _ _ => false

theorem tellsRejection_rejected (reason : Rejection) : (rejected reason).tellsRejection = true :=
  List.contains_iff_mem.2 reason.message_mem

theorem tellsRejection_of_tellsFailure {e : Event} (h : e.tellsFailure = true) :
    e.tellsRejection = false := by
  cases e with
  | lookupFailed | overrideFailed | sourceFailed =>
    simp [tellsRejection, message, Rejection.messages]
  | tokenized | rejected | report => cases h

end Event

namespace Schema

/-- Some hook of the schema reports the event of itself when it is called. -/
inductive Reports (s : Schema) (e : Event) : Prop
  | override {name f answer} : s.override name f = some answer → e ∈ answer.log → Reports s e
  | store {find name} : s.store = some find → e ∈ (find name).log → Reports s e
  | source {name f find o} : s.field? name = some f → f.source = some find →
      e ∈ (find o).log → Reports s e
  | validator {name f validate o} : s.field? name = some f → f.validator = some validate →
      e ∈ (validate o).log → Reports s e

/-- What a single check may log. -/
def Tells (s : Schema) (e : Event) : Prop := s.Reports e ∨ e.tellsFailure = true

variable {s : Schema} {f : Field} {name text : String} {o : Occurrence} {c : Check} {e : Event}
  {t : RuleSet}

/-- What goes on with the answer of a hook adds at most that the hook was passed over. -/
theorem tells_of_mem_andThen {α β : Type} {answer : Hook α} {next : Except String α → Logged β}
    (hanswer : ∀ e ∈ answer.log, s.Reports e)
    (hnext : ∀ result, ∀ e ∈ (next result).log, e.tellsFailure = true)
    (he : e ∈ (Logged.andThen answer next).log) : s.Tells e :=
  (List.mem_append.1 he).imp (hanswer e) (hnext _ e)

theorem tells_of_mem_operatorsFor (he : e ∈ (s.operatorsFor name f).log) : s.Tells e := by
  unfold operatorsFor at he
  cases hover : s.override name f with
  | none => simp [hover] at he
  | some answer =>
    simp only [hover] at he
    refine tells_of_mem_andThen (fun e he => .override hover he) ?_ he
    rintro (error | operators) e he
    · obtain rfl := List.mem_singleton.1 he
      rfl
    · cases he

theorem tells_of_mem_lookup (he : e ∈ (s.lookup name).log) : s.Tells e := by
  unfold lookup at he
  cases hstore : s.store with
  | none => simp [hstore] at he
  | some find =>
    simp only [hstore] at he
    refine tells_of_mem_andThen (fun e he => .store hstore he) ?_ he
    rintro (error | found) e he
    · obtain rfl := List.mem_singleton.1 he
      rfl
    · cases he

theorem tells_of_mem_acceptedFor (hf : s.field? name = some f)
    (he : e ∈ (acceptedFor f o).log) : s.Tells e := by
  unfold acceptedFor at he
  cases hsource : f.source with
  | none => simp [hsource] at he
  | some find =>
    simp only [hsource] at he
    refine tells_of_mem_andThen (fun e he => .source hf hsource he) ?_ he
    rintro (error | found) e he
    · obtain rfl := List.mem_singleton.1 he
      rfl
    · cases he

theorem tells_of_mem_checkValidator (hf : s.field? name = some f)
    (he : e ∈ (checkValidator f o).log) : s.Tells e := by
  unfold checkValidator at he
  cases hvalidator : f.validator with
  | none => simp [hvalidator, Check.accept] at he
  | some validate =>
    simp only [hvalidator] at he
    refine tells_of_mem_andThen (fun e he => .validator hf hvalidator he) ?_ he
    rintro (error | _ | _) e he <;> cases he

theorem log_require (ok : Bool) (reason : Rejection) : (Check.require ok reason).log = [] := by
  cases ok <;> rfl

theorem log_checkPresence (r : Rule) : (checkPresence r).log = [] := by
  unfold checkPresence
  split <;> exact log_require _ _

theorem log_checkEntity (s : Schema) (r : Rule) : (s.checkEntity r).log = [] := by
  unfold checkEntity
  split
  · exact log_require _ _
  · rfl

/-- Of the checks of a rule three ask a hook; the others have nothing to log. -/
theorem tells_of_mem_checksOfRule (hc : c ∈ s.checksOfRule o) (he : e ∈ c.log) : s.Tells e := by
  obtain rfl | ⟨f, hf, rfl | rfl | rfl | rfl | rfl | rfl | rfl⟩ := mem_checksOfRule hc
  · cases he
  · rw [checkOperator, Logged.log_bind, log_require, List.append_nil] at he
    exact tells_of_mem_operatorsFor he
  · rw [log_checkPresence] at he
    cases he
  · rw [checkList, log_require] at he
    cases he
  · rw [checkAccepted, Logged.log_bind, log_require, List.append_nil] at he
    exact tells_of_mem_acceptedFor hf he
  · exact tells_of_mem_checkValidator hf he
  · rw [log_checkEntity] at he
    cases he
  · rw [checkType, log_require] at he
    cases he

theorem tells_of_mem_checkHeader {h : Header} {childless : Bool}
    (he : e ∈ (s.checkHeader h childless).log) : s.Tells e := by
  unfold checkHeader at he
  split at he
  · rw [Logged.log_bind, log_require, List.append_nil] at he
    exact tells_of_mem_lookup he
  · rw [log_require] at he
    cases he

theorem tells_of_mem_checks (hc : c ∈ s.checks t) (he : e ∈ c.log) : s.Tells e := by
  obtain ⟨o, _, hc⟩ | ⟨u, _, rfl⟩ := mem_checks hc
  · exact tells_of_mem_checksOfRule hc he
  · exact tells_of_mem_checkHeader he

theorem tells_of_mem_lookupLog {names : List String} (he : e ∈ Query.lookupLog s names) :
    s.Tells e := by
  obtain ⟨name, _, he⟩ := List.mem_flatMap.1 he
  exact tells_of_mem_lookup he

theorem tells_of_mem_parse (he : e ∈ (Query.parse s text).log) :
    s.Tells e ∨ ∃ count, e = .tokenized count := by
  rw [Query.parse, Logged.log_bind] at he
  obtain he | he := List.mem_append.1 he
  · exact .inr ⟨_, List.mem_singleton.1 he⟩
  · refine .inl ?_
    unfold Query.parseTokens at he
    split at he
    · exact tells_of_mem_lookupLog he
    · exact tells_of_mem_lookupLog he

end Schema

namespace Logged

/-- A verdict that its log explains: a refusal has a single rejection in its log, as the last event,
and an acceptance has none. -/
structure Explained (v : Logged Bool) : Prop where
  accepted : v.value = true → ∀ e ∈ v.log, e.tellsRejection = false
  refused : v.value = false → ∃ before e, v.log = before ++ [e] ∧ e.tellsRejection = true ∧
    ∀ e ∈ before, e.tellsRejection = false

end Logged

/-- The single checks may log what tells of no rejection; then the verdict is explained. -/
theorem Check.RunsTo.explained {cs : List Check} {v : Logged Bool} (h : RunsTo cs v)
    (hcs : ∀ c ∈ cs, ∀ e ∈ c.log, e.tellsRejection = false) : v.Explained := by
  cases h with
  | accepted passed value log =>
    refine ⟨fun _ e he => ?_, fun hfalse => (nomatch value.symm.trans hfalse)⟩
    rw [log] at he
    obtain ⟨c, hc, he⟩ := List.mem_flatMap.1 he
    exact hcs c hc e he
  | refused passed failed left reason order passes fails value log =>
    refine ⟨fun htrue => (nomatch value.symm.trans htrue), fun _ => ?_⟩
    refine ⟨_, _, log, Event.tellsRejection_rejected reason, fun e he => ?_⟩
    obtain he | he := List.mem_append.1 he
    · obtain ⟨c, hc, he⟩ := List.mem_flatMap.1 he
      exact hcs c (by simp [order, hc]) e he
    · exact hcs failed (by simp [order]) e he

namespace Schema

variable {s : Schema} {c : Check} {e : Event} {t : RuleSet} {text : String}

/-- No hook reports of itself what tells of a rejection. -/
def HooksRejectNothing (s : Schema) : Prop := ∀ e, s.Reports e → e.tellsRejection = false

theorem HooksRejectNothing.tells (hs : s.HooksRejectNothing) (he : s.Tells e) :
    e.tellsRejection = false :=
  he.elim (hs e) Event.tellsRejection_of_tellsFailure

theorem log_checkSyntax (s : Schema) (text : String) :
    (s.checkSyntax text).log = (Query.parse s text).log := by
  rw [checkSyntax, Logged.log_bind]
  split
  · exact List.append_nil _
  · rw [log_require, List.append_nil]

theorem HooksRejectNothing.checks (hs : s.HooksRejectNothing) :
    ∀ c ∈ s.checks t, ∀ e ∈ c.log, e.tellsRejection = false :=
  fun _ hc _ he => hs.tells (tells_of_mem_checks hc he)

theorem HooksRejectNothing.checksOfText (hs : s.HooksRejectNothing) :
    ∀ c ∈ s.checksOfText text, ∀ e ∈ c.log, e.tellsRejection = false := by
  intro c hc e he
  obtain rfl | hc := List.mem_cons.1 hc
  · rw [log_checkSyntax] at he
    obtain he | ⟨count, rfl⟩ := tells_of_mem_parse he
    · exact hs.tells he
    · simp [Event.tellsRejection, Event.message, Rejection.messages]
  · split at hc
    · cases hc
    · exact hs.checks c hc e he

/-- A verdict on a tree or a text is explained by its log, as long as the hooks report no rejections
of their own; and what is logged are the reports of the single checks up to the first that
rejects. -/
theorem validate_explained (hs : s.HooksRejectNothing) (t : RuleSet) (text : String) :
    ((s.validateRuleSet t).Explained ∧ Check.RunsTo (s.checks t) (s.validateRuleSet t)) ∧
      (s.validateText text).Explained ∧
        Check.RunsTo (s.checksOfText text) (s.validateText text) := by
  have htree := runsTo_validateRuleSet s t
  have htext := runsTo_validateText s text
  exact ⟨⟨htree.explained hs.checks, htree⟩, htext.explained hs.checksOfText, htext⟩

/-- A failing source is passed over, and a failing validator refuses the first of two rules. The
second one is not looked at, although its field is unknown. -/
theorem validate_explained_failing_hooks :
    let a : Field :=
      { source := some fun _ => (Hook.refuse "no source").announced "source called" []
        validator := some fun _ => (Hook.refuse "no validator").announced "validator called" [] }
    let s : Schema := { field? := fun name => if name = "a" then some a else none }
    let t := RuleSet.ofChildren .or
      [.rule { field := "a", operator := "=", value := some (.bool true) },
        .rule { field := "b", operator := "=", value := some (.bool true) }]
    s.HooksRejectNothing ∧ (s.validateRuleSet t).value = false ∧ (s.validateRuleSet t).Explained ∧
      (s.validateText "a=x | b=x").Explained ∧ (s.validateRuleSet t).log =
        [.report "source called" [], .sourceFailed "a" "no source",
          .report "validator called" [], .rejected (.validatorFailed "a" "no validator")] := by
  intro a s t
  have hs : s.HooksRejectNothing := by
    intro e he
    cases he with
    | override hover => cases hover
    | store hstore => cases hstore
    | source hf hsource he | validator hf hsource he =>
      obtain ⟨-, hf⟩ := Option.ite_none_right_eq_some.1 hf
      obtain rfl := Option.some.inj hf
      obtain rfl := Option.some.inj hsource
      obtain rfl := List.mem_singleton.1 he
      decide
  obtain ⟨⟨htree, _⟩, htext, _⟩ := validate_explained hs t "a=x | b=x"
  exact ⟨hs, by decide, htree, htext, by decide⟩

end Schema

end BoolQuery
