import BoolQuery.Proofs.Query.RuleText

/-! Values as literals. A value of the kind that its field is compared with is written as one
literal, and is what the field is then compared with; no string is beyond it, as one that could be
taken for something else is quoted. -/

namespace BoolQuery.Value
open Query

/-- The values that a field is compared with, by its type. A field whose type is neither a number
nor a boolean nor a date, or is not known, is compared with strings. -/
def Belongs (s : Schema) (field : String) : Value → Prop
  | number x => x.isFinite = true ∧ ∃ f, s.field? field = some f ∧ f.type = .number
  | bool _ => ∃ f, s.field? field = some f ∧ f.type = .boolean
  | date _ => ∃ f, s.field? field = some f ∧ f.type = .date
  | string _ => ∀ f, s.field? field = some f → f.type ∉ [.number, .boolean, .date]
  | list _ => False

/-- The text of the value is a single literal and no name of a ruleset, wherever a word may end
behind it, and that literal is read as the value. -/
structure WrittenAs (s : Schema) (field : String) (t : Token) (v : Value) : Prop where
  literal : t.isLiteral = true
  unnamed : t.isRuleSetName = false
  lexed : ∀ rest, EndsWord rest → tokenize (v.queryText ++ rest) = t :: tokenize rest
  read : (s.valueOf field t == v) = true

variable {s : Schema} {field : String} {v : Value}

/-- A bare word stays a string where no other type claims it. -/
theorem ofWord_of_notMem {type : FieldType} (h : type ∉ [.number, .boolean, .date]) (w : String) :
    ofWord type w = string w := by
  cases type with
  | number | boolean | date => simp at h
  | _ => rfl

theorem Belongs.suits (h : v.Belongs s field) : v.Suits s field := by
  cases v with
  | string w =>
    right
    simp only [Schema.valueOf]
    cases hf : s.field? field with
    | none => rfl
    | some f => exact ofWord_of_notMem (h f hf) w
  | list _ => cases h
  | _ => exact h

theorem WrittenAs.of_token? {t : Token} (ht : v.token? = some t)
    (hread : (s.valueOf field t == v) = true) : WrittenAs s field t v where
  literal := isLiteral_of_token? ht
  unnamed := isRuleSetName_of_token? ht
  lexed _ hrest := tokenize_queryText ht hrest
  read := hread

/-- What belongs to a field is written as a literal and read back from it, and a list of such values
is written as their literals, with commas between them and parentheses around them. -/
theorem exists_writtenAs (s : Schema) (field : String) :
    (∀ v : Value, v.Belongs s field → ∃ t, WrittenAs s field t v) ∧
    ∀ vs : List Value, (∀ v ∈ vs, v.Belongs s field) →
      ∃ ts, List.Forall₂ (WrittenAs s field) ts vs ∧ ∀ rest,
        tokenize ((list vs).queryText ++ rest) =
          ⟨.symbol, "("⟩ :: (ts.intersperse comma ++ [⟨.symbol, ")"⟩]) ++ tokenize rest := by
  have hfits (v : Value) (h : v.Belongs s field) :
      ∃ t, v.token? = some t ∧ WrittenAs s field t v := by
    obtain ⟨t, ht, hread⟩ := h.suits.fits
    exact ⟨t, ht, .of_token? ht hread⟩
  constructor
  · intro v hv
    obtain ⟨t, _, ht⟩ := hfits v hv
    exact ⟨t, ht⟩
  · intro vs hvs
    obtain ⟨ts, hts, hwritten⟩ := exists_tokens? fun v hv => hfits v (hvs v hv)
    exact ⟨ts, hwritten, Rule.tokenize_list hts⟩

/-- The negative zero, and strings that are spelled like a name and like a list. -/
theorem exists_writtenAs_mixed :
    let s : Schema :=
      { field? := fun name => if name = "age" then some { type := .number } else none }
    let zero : Value := number ⟨true, 0, by decide⟩
    let words := [string "ADULTS", string "a, b"]
    (zero.Belongs s "age" ∧ ∃ t, WrittenAs s "age" t zero) ∧
    (∀ v ∈ words, v.Belongs s "name") ∧
    ∃ ts, List.Forall₂ (WrittenAs s "name") ts words ∧ ∀ rest,
      tokenize ((list words).queryText ++ rest) =
        ⟨.symbol, "("⟩ :: (ts.intersperse comma ++ [⟨.symbol, ")"⟩]) ++ tokenize rest := by
  intro s zero words
  have hzero : zero.Belongs s "age" := ⟨by decide, _, rfl, rfl⟩
  have hwords : ∀ v ∈ words, v.Belongs s "name" := by simp [words, Belongs, s]
  exact ⟨⟨hzero, (exists_writtenAs s "age").1 zero hzero⟩, hwords,
    (exists_writtenAs s "name").2 words hwords⟩

end BoolQuery.Value
