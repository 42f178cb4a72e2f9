import BoolQuery.Proofs.Query.AcceptedQueries
import BoolQuery.Proofs.Query.BareWords
import BoolQuery.Proofs.Validity
import BoolQuery.Proofs.Wire.Declarations

/-! The values that a field offers, chosen in a query. What is written for an option is read by the
type of the field and then looked for among the options. A document states a date as a string; such
a string is written bare, is read as the date it names, and is then none of the options. -/

namespace BoolQuery

namespace Value

/-- The scalars by which a document states a value of a type: a date by its text `YYYY-MM-DD`, and
what is neither a number nor a boolean by a string. -/
inductive States : FieldType → Value → Prop
  | number (x : Numeric.Double) : States .number (.number x)
  | boolean (b : Bool) : States .boolean (.bool b)
  | date (d : Date) (low : 0 ≤ d.year) (high : d.year ≤ 9999) :
      States .date (.string (String.ofList d.text))
  | string {type : FieldType} (w : String) (other : type ∉ [.number, .boolean, .date]) :
      States type (.string w)

theorem States.exists_date {v : Value} (h : v.States .date) :
    ∃ d : Date, Query.isBareWord (String.ofList d.text) = true ∧
      v = .string (String.ofList d.text) := by
  cases h with
  | date d low high => exact ⟨d, Date.isBareWord_text_iff.2 high, rfl⟩
  | string w other => simp at other

theorem not_date_beq_of_undated {d : Date} {v : Value} (h : v.undated = v) :
    ¬ (date d == v) = true := by
  intro heq
  cases v with
  | date e => cases h
  | _ => cases heq

/-- What a document states of a type other than a date is read back from its text. -/
theorem States.suits {s : Schema} {field : String} {f : Field} {type : FieldType} {v : Value}
    (h : v.States type) (hf : s.field? field = some f) (htype : f.type = type)
    (hfinite : v.IsFinite) (hdate : type ≠ .date) : v.Suits s field := by
  cases h with
  | number x => exact ⟨hfinite, f, hf, htype⟩
  | boolean b => exact ⟨f, hf, htype⟩
  | date => exact absurd rfl hdate
  | string w other =>
    right
    simp only [Schema.valueOf, hf, htype]
    cases type <;> simp_all [ofWord]

end Value

namespace Schema
open Query

variable {s : Schema} {text : String} {r : Rule}

theorem validateText_iff_of_readsAs (h : ReadsAs s text r) :
    (s.validateText text).value = true ↔
      ∃ f, s.field? r.field = some f ∧ s.Allows f ⟨r, .ofRule r⟩ := by
  obtain ⟨p, hp, hc, htree⟩ := h
  rw [value_validateText hp hc, htree, validateRuleSet_eq_true_iff, valid_ofRule_iff]

end Schema

namespace Config
open Query Rule

variable {c : Config} {document text name : String} {f : Field} {v w : Value}

/-- A comparison with a field that offers something is allowed if the value is offered. -/
theorem allows_equals_iff (hc : ofJsonText? document = some c) (hstrict : c.strict = false)
    (hf : c.fields.get? name = some f) (hops : ∀ ops, f.operators = some ops → "=" ∈ ops)
    (hoffers : f.optionValues ≠ []) {enclosing : RuleSet} :
    c.toSchema.Allows f ⟨{ field := name, operator := "=", value := some w }, enclosing⟩ ↔
      ∃ o ∈ f.optionValues, (w == o) = true := by
  have hdeclared := declared_of_ofJsonText? hc
  obtain ⟨hsource, hvalidator, -⟩ := hdeclared.fields hf
  have hforce : c.toSchema.operatorsInForce name f = f.operators.getD [] := by
    simp [Schema.operatorsInForce, toSchema, hdeclared.override]
  have hvalues (o : Occurrence) : f.valuesFor o = f.optionValues := by
    simp [Field.valuesFor, hsource]
  constructor
  · intro h
    rw [← hvalues] at hoffers ⊢
    exact h.accepted hoffers w (by simp [operands, isListOperator])
  · intro h
    refine ⟨?_, ?_, ?_, fun _ => ?_, ?_, ?_, ?_⟩
    · rw [hforce]
      cases hoperators : f.operators with
      | none => exact .inl rfl
      | some ops => exact .inr (hops ops hoperators)
    · simp [isNullTest, nullTests]
    · simp [isListOperator]
    · simpa [operands, isListOperator, hvalues] using h
    · simp [hvalidator]
    · intro _ _ _ hentity
      cases hentity
    · intro htyped
      exact absurd (hstrict.symm.trans htyped) Bool.false_ne_true

theorem validateText_iff_offered (hc : ofJsonText? document = some c) (hstrict : c.strict = false)
    (hf : c.fields.get? name = some f) (hops : ∀ ops, f.operators = some ops → "=" ∈ ops)
    (hoffers : f.optionValues ≠ [])
    (h : ReadsAs c.toSchema text { field := name, operator := "=", value := some w }) :
    (c.toSchema.validateText text).value = true ↔ ∃ o ∈ f.optionValues, (w == o) = true := by
  have hfield : c.toSchema.field? name = some f := hf
  rw [Schema.validateText_iff_of_readsAs h]
  simp only [hfield, Option.some.injEq, exists_eq_left',
    allows_equals_iff hc hstrict hf hops hoffers]

theorem readsAs_equals {s : Schema} {t : Token} (hname : IsField name) (ht : v.token? = some t) :
    ReadsAs s (RuleSet.ofRule { field := name, operator := "=", value := some v }).toQuery
      { field := name, operator := "=", value := some (s.valueOf name t) } :=
  readsAs_toQuery hname (.sign (by simp)) ht rfl

/-- The query that chooses an option is accepted unless the option is a date. In quotes, a string
that is offered is always accepted. -/
theorem validateText_option_iff (hc : ofJsonText? document = some c) (hstrict : c.strict = false)
    (hf : c.fields.get? name = some f) (hname : IsField name)
    (hops : ∀ ops, f.operators = some ops → "=" ∈ ops) (hv : v ∈ f.optionValues)
    (htype : v.States f.type) :
    ((c.toSchema.validateText
        (RuleSet.ofRule { field := name, operator := "=", value := some v }).toQuery).value = true ↔
      f.type ≠ .date) ∧
    ∀ w, v = .string w → (c.toSchema.validateText
      (String.ofList (textWith name "=" (Text.quote w.toList)))).value = true := by
  have hfield : c.toSchema.field? name = some f := hf
  have hplain := ((declared_of_ofJsonText? hc).fields hf).offered
  have haccepted {text : String} {w : Value}
      (h : ReadsAs c.toSchema text { field := name, operator := "=", value := some w }) :=
    validateText_iff_offered hc hstrict hf hops (List.ne_nil_of_mem hv) h
  refine ⟨⟨fun h hdate => ?_, fun hdate => ?_⟩, ?_⟩
  · obtain ⟨d, hbare, rfl⟩ := (hdate ▸ htype).exists_date
    obtain ⟨o, ho, heq⟩ := (haccepted (readsAs_equals hname (token?_bareWord hbare))).1 h
    rw [Value.valueOf_dateText hfield hdate] at heq
    exact Value.not_date_beq_of_undated (hplain o ho).undated heq
  · obtain ⟨t, ht, heq⟩ := (htype.suits hfield rfl (hplain v hv).finite hdate).fits
    exact (haccepted (readsAs_equals hname ht)).2 ⟨v, hv, heq⟩
  · rintro w rfl
    exact (haccepted (readsAs_quote hname (.sign (by simp)) w)).2 ⟨_, hv, Value.string_beq_self w⟩

/-- The only day that is offered, as it is written and in quotes. -/
theorem validateText_option_iff_day :
    let options : Json :=
      .array [.record [("name", .ofString "d"), ("value", .ofString "1990-04-12")]]
    let fields : Json :=
      .record [("day", .record [("type", .ofString "date"), ("options", options)])]
    let choice : RuleSet :=
      .ofRule { field := "day", operator := "=", value := some (.string "1990-04-12") }
    ∃ c, ofJsonText? (String.ofList (Json.record [("fields", fields)]).text) = some c ∧
      (c.toSchema.validateText choice.toQuery).value ≠ true ∧
      (c.toSchema.validateText
        (String.ofList (textWith "day" "=" (Text.quote "1990-04-12".toList)))).value = true := by
  intro options fields choice
  have hoptions : options.Readable := ⟨Json.readable_record (by simp), trivial⟩
  have hreadable : (Json.record [("fields", fields)]).Readable := by
    refine Json.readable_record (List.forall_mem_singleton.2 ?_)
    refine Json.readable_record (List.forall_mem_singleton.2 ?_)
    exact Json.readable_record (by simp [hoptions])
  let day : Field := { type := .date, options := some [⟨"d", .string "1990-04-12"⟩] }
  have hc : ofJsonText? (String.ofList (Json.record [("fields", fields)]).text) =
      some { fields := [("day", day)] } := by
    rw [ofJsonText?, String.toList_ofList, Json.read?_text hreadable, Option.bind_some]
    rfl
  have hday : IsField "day" := ⟨(IsBare.of_all (by decide) (by decide)).isWord, by decide +kernel⟩
  let date : Date := ⟨1990, 4, 12, by decide⟩
  have htext : String.ofList date.text = "1990-04-12" := by decide
  have hstates : (Value.string "1990-04-12").States day.type :=
    htext ▸ .date date (by decide) (by decide)
  obtain ⟨hbare, hquoted⟩ := validateText_option_iff hc rfl (f := day) rfl hday nofun
    (List.mem_singleton_self _) hstates
  exact ⟨_, hc, fun h => hbare.1 h rfl, hquoted _ rfl⟩

end Config

end BoolQuery
