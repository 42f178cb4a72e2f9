import BoolQuery.Proofs.Date.ReadBack
import BoolQuery.Proofs.Numeric.ReadBack
import BoolQuery.Proofs.Query.Grammar
import BoolQuery.Proofs.Query.Lexing
import BoolQuery.Query.Tree
import BoolQuery.Query.Writer
import Mathlib.Data.List.Forall2

/-! The tokens of values. A scalar is written as one token, whatever it is; whether that
token is read as the scalar again depends on the field that it is compared with. -/

namespace BoolQuery

namespace Query
open Text

theorem isReserved_of_isAlphanum {c : Char} (h : c.isAlphanum = true) : isReserved c = false := by
  have hend : c ∉ wordEnders := by
    have hall : ∀ d ∈ wordEnders, d.isAlphanum = false :=
      List.all_iff_forall_prop.1 (by decide)
    intro hmem
    rw [hall c hmem] at h
    cases h
  simpa [isReserved, isBlank_of_isAlphanum h] using hend

/-- Letters, digits and the few other characters that need no quotes. -/
structure IsBare (cs : List Char) : Prop where
  ne_nil : cs ≠ []
  plain : ∀ c ∈ cs, c.isAlphanum = true ∨ c ∈ ['.', '_', '-', '+']

namespace IsBare

variable {cs : List Char}

/-- A check of `IsBare` on given characters. -/
theorem of_all (hne : cs ≠ [])
    (h : cs.all (fun c => c.isAlphanum || ['.', '_', '-', '+'].contains c) = true) :
    IsBare cs where
  ne_nil := hne
  plain c hc := by simpa using List.all_eq_true.1 h c hc

theorem of_isBareWord {s : String} (h : isBareWord s = true) : IsBare s.toList := by
  simp only [isBareWord, Bool.and_eq_true, Bool.not_eq_true', List.isEmpty_eq_false_iff,
    Text.everyChar, List.all_eq_true, Bool.or_eq_true, beq_iff_eq] at h
  refine ⟨h.1.1, ?_⟩
  intro c hc
  obtain ((halpha | rfl) | rfl) | rfl := h.1.2 c hc
  · exact .inl halpha
  all_goals exact .inr (by decide)

theorem doubleText (x : Numeric.Double) : IsBare x.queryText := by
  by_cases hfin : x.isFinite = true
  · obtain ⟨hne, hchars⟩ := Numeric.Double.queryText_chars hfin
    refine ⟨hne, ?_⟩
    intro c hc
    obtain h | rfl | rfl := hchars c hc
    · exact .inl (isAlphanum_iff.2 (.inr h))
    all_goals exact .inr (by decide)
  · rw [Numeric.Double.queryText, if_pos (by simpa using hfin)]
    exact of_all (by decide) (by decide)

theorem dateText (d : Date) : IsBare d.text := by
  obtain ⟨hne, hchars⟩ := d.text_chars
  refine ⟨hne, ?_⟩
  intro c hc
  obtain h | rfl | rfl := hchars c hc
  · exact .inl (isAlphanum_iff.2 (.inr h))
  all_goals exact .inr (by decide)

theorem boolText (b : Bool) : IsBare (Value.boolText b) := by
  cases b <;> exact of_all (by decide) (by decide)

theorem not_mem (h : IsBare cs) {c : Char} (halnum : c.isAlphanum = false)
    (hc : c ∉ ['.', '_', '-', '+']) : c ∉ cs := by
  intro hmem
  rcases h.plain c hmem with halpha | hplain
  · rw [halnum] at halpha
    cases halpha
  · exact hc hplain

/-- They are read as one word. -/
theorem isWord (h : IsBare cs) : IsWord cs where
  ne_nil := h.ne_nil
  plain c hc := by
    obtain halpha | hmem := h.plain c hc
    · exact isReserved_of_isAlphanum halpha
    · have hall : ∀ d ∈ ['.', '_', '-', '+'], isReserved d = false :=
        List.all_iff_forall_prop.1 (by decide)
      exact hall c hmem
  unquoted hhead := h.not_mem (by decide) (by decide) (List.mem_of_mem_head? hhead)

end IsBare

end Query

namespace Value
open Query

/-- The token that a scalar is written as. -/
def token? : Value → Option Token
  | list _ => none
  | string s => some ⟨if isBareWord s then .word else .quoted, s⟩
  | v => some ⟨.word, String.ofList v.queryText⟩

theorem isLiteral_of_token? {v : Value} {t : Token} (h : v.token? = some t) :
    t.isLiteral = true := by
  unfold token? at h
  split at h <;> cases h
  · simp only [Token.isLiteral]
    split <;> rfl
  · rfl

/-- A scalar is written bare or in quotes. -/
theorem queryText_cases {v : Value} {t : Token} (h : v.token? = some t) :
    IsBare v.queryText ∨ ∃ w : String, v.queryText = Text.quote w.toList := by
  cases v with
  | list _ => cases h
  | string w =>
    simp only [queryText, stringText]
    split
    · rename_i hbare
      exact .inl (.of_isBareWord hbare)
    · exact .inr ⟨w, rfl⟩
  | bool b => exact .inl (.boolText b)
  | number x => exact .inl (.doubleText x)
  | date d => exact .inl (.dateText d)

/-- A scalar is read as its token where a character that ends words, or nothing, follows. -/
theorem tokenize_queryText {v : Value} {t : Token} (h : v.token? = some t) {rest : List Char}
    (hrest : EndsWord rest) : tokenize (v.queryText ++ rest) = t :: tokenize rest := by
  cases v with
  | list _ => cases h
  | string s =>
    cases h
    simp only [queryText, stringText]
    split
    · rename_i hbare
      rw [tokenize_word (IsBare.of_isBareWord hbare).isWord hrest, String.ofList_toList]
    · rw [tokenize_quote, String.ofList_toList]
  | bool b =>
    cases h
    exact tokenize_word (IsBare.boolText b).isWord hrest
  | number x =>
    cases h
    exact tokenize_word (IsBare.doubleText x).isWord hrest
  | date d =>
    cases h
    exact tokenize_word (IsBare.dateText d).isWord hrest

/-- The tokens of scalars in turn. -/
def tokens? (vs : List Value) : Option (List Token) := vs.mapM token?

theorem tokens?_cons {v : Value} {vs : List Value} {ts : List Token}
    (h : tokens? (v :: vs) = some ts) :
    ∃ t us, v.token? = some t ∧ tokens? vs = some us ∧ ts = t :: us := by
  simp only [tokens?, List.mapM_cons, Option.bind_eq_bind, Option.bind_eq_some_iff,
    Option.pure_def, Option.some.injEq] at h
  obtain ⟨t, ht, us, hus, rfl⟩ := h
  exact ⟨t, us, ht, hus, rfl⟩

theorem forall_of_tokens? {P : Token → Prop}
    (hP : ∀ {v : Value} {t : Token}, v.token? = some t → P t) {vs : List Value} {ts : List Token}
    (h : tokens? vs = some ts) : ∀ t ∈ ts, P t := by
  induction vs generalizing ts with
  | nil =>
    cases h
    simp
  | cons v vs ih =>
    obtain ⟨t, us, ht, hus, rfl⟩ := tokens?_cons h
    exact List.forall_mem_cons.2 ⟨hP ht, ih hus⟩

theorem exists_tokens? {P : Token → Value → Prop} {vs : List Value}
    (h : ∀ v ∈ vs, ∃ t, v.token? = some t ∧ P t v) :
    ∃ ts, tokens? vs = some ts ∧ List.Forall₂ P ts vs := by
  induction vs with
  | nil => exact ⟨[], rfl, .nil⟩
  | cons v vs ih =>
    obtain ⟨t, ht, hP⟩ := h v (by simp)
    obtain ⟨ts, hts, hPs⟩ := ih fun w hw => h w (by simp [hw])
    refine ⟨t :: ts, ?_, .cons hP hPs⟩
    simp only [tokens?] at hts ⊢
    simp [ht, hts]

/-- The token between the values of a list. -/
def comma : Token := ⟨.symbol, ","⟩

theorem tokenize_comma (cs : List Char) : tokenize (',' :: cs) = comma :: tokenize cs :=
  tokenize_symbol (by decide) (by decide) cs

theorem endsWord_of_mem {c : Char} (h : c ∈ wordEnders) (cs : List Char) : EndsWord (c :: cs) :=
  .cons (reserved_of_mem_wordEnders h) cs

/-- Scalars with commas between them are split into their tokens with commas between them. -/
theorem tokenize_queryTexts {vs : List Value} {ts : List Token} (h : tokens? vs = some ts)
    (rest : List Char) : tokenize ([','].intercalate (queryTexts vs) ++ ')' :: rest) =
      ts.intersperse comma ++ tokenize (')' :: rest) := by
  induction vs generalizing ts with
  | nil =>
    cases h
    rfl
  | cons v vs ih =>
    obtain ⟨t, ts', ht, hts', rfl⟩ := tokens?_cons h
    cases vs with
    | nil =>
      cases hts'
      simpa [queryTexts, List.intercalate] using
        tokenize_queryText ht (endsWord_of_mem (by decide) rest : EndsWord (')' :: rest))
    | cons w ws =>
      obtain ⟨u, us, _, _, rfl⟩ := tokens?_cons hts'
      have hsplit : [','].intercalate (queryTexts (v :: w :: ws)) ++ ')' :: rest =
          v.queryText ++ ',' :: ([','].intercalate (queryTexts (w :: ws)) ++ ')' :: rest) := by
        simp [queryTexts, List.intercalate]
      rw [hsplit, tokenize_queryText ht (endsWord_of_mem (by decide) _), tokenize_comma, ih hts']
      rfl

theorem lists_intersperse {ts : List Token} (h : ∀ t ∈ ts, t.isLiteral = true) :
    Clause.Lists (ts.intersperse comma) ts := by
  induction ts with
  | nil => exact .nil
  | cons t ts ih =>
    have ht := h t (by simp)
    have hts := ih fun u hu => h u (by simp [hu])
    cases ts with
    | nil => exact .cons ht .nil
    | cons u us => exact .comma ht rfl hts

/-- Compared with the field, what is written for a scalar is read as an equal one. -/
def Fits (s : Schema) (field : String) (v : Value) : Prop :=
  ∃ t, v.token? = some t ∧ (s.valueOf field t == v) = true

/-- The scalar is of the kind that the field is compared with, or a string that quotes or
its letters keep from being read as another kind. -/
def Suits (s : Schema) (field : String) : Value → Prop
  | number x => x.isFinite = true ∧ ∃ f, s.field? field = some f ∧ f.type = .number
  | bool _ => ∃ f, s.field? field = some f ∧ f.type = .boolean
  | date _ => ∃ f, s.field? field = some f ∧ f.type = .date
  | string w => isBareWord w = false ∨ s.valueOf field ⟨.word, w⟩ = .string w
  | list _ => False

mutual

/-- Equal values are written alike. -/
theorem queryText_of_equal (v w : Value) (h : equal v w = true) : v.queryText = w.queryText := by
  cases v with
  | bool b =>
    cases w with
    | bool c => rw [eq_of_beq h]
    | _ => cases h
  | number x =>
    cases w with
    | number y => exact Numeric.Double.queryText_of_beq h
    | _ => cases h
  | string u =>
    cases w with
    | string w => rw [eq_of_beq h]
    | _ => cases h
  | date d =>
    cases w with
    | date e => rw [eq_of_beq h]
    | _ => cases h
  | list vs =>
    cases w with
    | list ws => rw [queryText, queryText, queryTexts_of_equalAll vs ws h]
    | _ => cases h

theorem queryTexts_of_equalAll (vs ws : List Value) (h : equalAll vs ws = true) :
    queryTexts vs = queryTexts ws := by
  cases vs with
  | nil =>
    cases ws with
    | nil => rfl
    | cons _ _ => cases h
  | cons v vs =>
    cases ws with
    | nil => cases h
    | cons w ws =>
      obtain ⟨hv, hvs⟩ := Bool.and_eq_true_iff.1 h
      rw [queryTexts, queryTexts, queryText_of_equal v w hv, queryTexts_of_equalAll vs ws hvs]

end

theorem string_beq_self (w : String) : (string w == string w) = true := by
  show equal _ _ = true
  simp [equal]

theorem bool_beq_self (b : Bool) : (bool b == bool b) = true := by
  show equal _ _ = true
  simp [equal]

theorem date_beq_self (d : Date) : (date d == date d) = true := by
  show equal _ _ = true
  simp [equal]

/-- Without quotes the text of a date is read as the date by a date field. -/
theorem valueOf_dateText {s : Schema} {field : String} {f : Field} {d : Date}
    (hf : s.field? field = some f) (hdate : f.type = .date) :
    s.valueOf field ⟨.word, String.ofList d.text⟩ = date d := by
  simp only [Schema.valueOf, hf, hdate, ofWord, String.toList_ofList, Date.read?_text]
  rfl

theorem Suits.fits {s : Schema} {field : String} {v : Value} (h : v.Suits s field) :
    v.Fits s field := by
  cases v with
  | number x =>
    obtain ⟨hfin, f, hf, htype⟩ := h
    obtain ⟨y, hread, hy⟩ := Numeric.Double.read?_queryText hfin
    have hblank : ∀ c ∈ x.queryText, Text.isBlank c = false := fun c hc =>
      (not_mem_of_not_reserved ((IsBare.doubleText x).isWord.plain c hc)).1
    refine ⟨_, rfl, ?_⟩
    simp only [Schema.valueOf, hf, htype, Value.ofWord, queryText, String.toList_ofList,
      Text.trim_of_not_isBlank hblank, hread]
    exact hy
  | bool b =>
    obtain ⟨f, hf, htype⟩ := h
    refine ⟨_, rfl, ?_⟩
    have hread : s.valueOf field ⟨.word, String.ofList (bool b).queryText⟩ = .bool b := by
      simp only [Schema.valueOf, hf, htype, Value.ofWord]
      cases b <;> rfl
    rw [hread]
    exact bool_beq_self b
  | date d =>
    obtain ⟨f, hf, htype⟩ := h
    refine ⟨_, rfl, ?_⟩
    have hread : s.valueOf field ⟨.word, String.ofList (date d).queryText⟩ = .date d :=
      valueOf_dateText hf htype
    rw [hread]
    exact date_beq_self d
  | string w =>
    refine ⟨_, rfl, ?_⟩
    have hread : s.valueOf field ⟨if isBareWord w then .word else .quoted, w⟩ = .string w := by
      obtain hquoted | hword := h
      · simp [hquoted, Schema.valueOf]
      · split
        · exact hword
        · simp [Schema.valueOf]
    rw [hread]
    exact string_beq_self w
  | list _ => cases h

end Value

end BoolQuery
