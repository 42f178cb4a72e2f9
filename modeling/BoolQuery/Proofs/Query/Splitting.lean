import BoolQuery.Proofs.Query.Lexing

/-! What texts are split into, whoever wrote them: every word and every operator has the shape
that its reader looks for, and a quotation begins only at a quotation mark. -/

namespace BoolQuery.Query
open Text

/-- A word is one that can be read as such, and an operator is one of the known signs. -/
def Token.IsFormed (t : Token) : Prop :=
  match t.kind with
  | .word => IsWord t.text.toList
  | .operator => t.text.toList ∈ comparisonSigns ++ Lexeme.negatedKeywords.map ('!' :: ·)
  | .symbol | .quoted => True

namespace Lexeme

variable {cs : List Char} {x : Lexeme}

theorem isFormed_of_comparison? (h : comparison? cs = some x) : x.1.IsFormed := by
  have hpairs : ∀ c ∈ ['!', '=', '<', '>'], [c, '='] ∈ comparisonSigns :=
    List.all_iff_forall_prop.1 (by decide)
  have hsingles : ∀ c ∈ ['=', '<', '>'], [c] ∈ comparisonSigns :=
    List.all_iff_forall_prop.1 (by decide)
  cases cs with
  | nil => cases h
  | cons c cs =>
    simp only [comparison?] at h
    split at h
    · split at h
      · rename_i hc
        cases h
        have hmem := hpairs c (List.contains_iff_mem.1 hc)
        simp [Token.IsFormed, operator, hmem]
      · cases h
    · split at h
      · rename_i hc
        cases h
        have hmem := hsingles c (List.contains_iff_mem.1 hc)
        simp [Token.IsFormed, operator, hmem]
      · cases h

theorem isFormed_of_negatedKeyword? (h : negatedKeyword? cs = some x) : x.1.IsFormed := by
  unfold negatedKeyword? at h
  split at h
  · simp only at h
    split at h
    · rename_i hword
      cases h
      obtain ⟨hmem, _⟩ := Bool.and_eq_true_iff.1 hword
      have hmem := List.contains_iff_mem.1 hmem
      simp only [Token.IsFormed, operator, String.toList_ofList]
      exact List.mem_append_right _ (List.mem_map_of_mem hmem)
    · cases h
  · cases h

theorem isWord_of_word? (hquoted : quoted? cs = none) (h : word? cs = some x) :
    IsWord x.1.text.toList := by
  simp only [word?] at h
  split at h
  · cases h
  · rename_i hne
    cases h
    refine ⟨?_, ?_, ?_⟩
    · simpa using hne
    · intro c hc
      rw [String.toList_ofList] at hc
      simpa using List.all_eq_true.1 List.all_takeWhile c hc
    · intro hhead
      rw [String.toList_ofList] at hhead
      cases cs with
      | nil => cases hhead
      | cons c cs =>
        rw [List.takeWhile_cons] at hhead
        split at hhead
        · obtain rfl : c = '"' := by simpa using hhead
          cases hquoted
        · cases hhead

theorem isFormed_of_read? (h : read? cs = some x) : x.1.IsFormed := by
  simp only [read?, Option.or_eq_some_iff] at h
  rcases h with h | ⟨_, h | ⟨_, h | ⟨_, h | ⟨hq, h⟩⟩⟩⟩
  · exact isFormed_of_comparison? h
  · exact isFormed_of_negatedKeyword? h
  · cases cs with
    | nil => cases h
    | cons c cs =>
      simp only [symbol?] at h
      split at h
      · cases h
        trivial
      · cases h
  · unfold quoted? at h
    split at h
    · cases h
      trivial
    · cases h
  · have hw := isWord_of_word? hq h
    simp only [word?] at h
    split at h
    · cases h
    · cases h
      exact hw

/-- Every text without a leading blank begins with a token. -/
theorem exists_read? {c : Char} (hblank : isBlank c = false) (cs : List Char) :
    ∃ x, read? (c :: cs) = some x := by
  rw [← Option.isSome_iff_exists]
  by_cases hres : isReserved c = true
  · have hmem : c ∈ wordEnders := by simpa [isReserved, hblank] using hres
    have hall : ∀ c ∈ wordEnders, c ∈ symbols ∨ c ∈ ['=', '<', '>'] :=
      List.all_iff_forall_prop.1 (by decide)
    rcases hall c hmem with hsym | hsign
    · simp [read?, symbol?, hsym]
    · have hcmp : (comparison? (c :: cs)).isSome = true := by
        have hpair : c ∈ ['!', '=', '<', '>'] := List.mem_cons_of_mem _ hsign
        simp only [comparison?]
        split
        · rw [if_pos (List.contains_iff_mem.2 hpair)]
          rfl
        · rw [if_pos (List.contains_iff_mem.2 hsign)]
          rfl
      simp [read?, hcmp]
  · simp [read?, word?, hres]

theorem read?_ne_none {c : Char} (hblank : ¬isBlank c = true) (cs : List Char) :
    read? (c :: cs) ≠ none := by
  obtain ⟨x, hx⟩ := exists_read? (by simpa using hblank) cs
  rw [hx]
  exact Option.some_ne_none x

end Lexeme

theorem isFormed_of_mem_tokenize {cs : List Char} {t : Token} (h : t ∈ tokenize cs) :
    t.IsFormed := by
  fun_induction tokenize cs with
  | case1 => cases h
  | case2 c cs hb ih => exact ih h
  | case3 c cs hb x hx ih =>
    rcases List.mem_cons.1 h with rfl | h
    · exact Lexeme.isFormed_of_read? hx
    · exact ih h
  | case4 c cs hb hnone => exact absurd hnone (Lexeme.read?_ne_none hb cs)

/-- What a token takes off the text, unless it is an operator. -/
theorem cases_of_read? {c : Char} {cs : List Char} {x : Lexeme}
    (h : Lexeme.read? (c :: cs) = some x) : x.1.kind = .operator ∨
      (x.1.kind = .word ∧ c :: cs = x.1.text.toList ++ x.2) ∨
      (c ∈ Lexeme.symbols ∧ x = (⟨.symbol, String.ofList [c]⟩, cs)) ∨
      (c = '"' ∧ x = (⟨.quoted, String.ofList (Lexeme.unquote cs).1⟩, (Lexeme.unquote cs).2)) := by
  simp only [Lexeme.read?, Option.or_eq_some_iff] at h
  rcases h with h | ⟨_, h | ⟨_, h | ⟨_, h | ⟨_, h⟩⟩⟩⟩
  · simp only [Lexeme.comparison?] at h
    split at h <;> split at h <;> cases h <;> exact .inl rfl
  · unfold Lexeme.negatedKeyword? at h
    split at h
    · simp only at h
      split at h <;> cases h
      exact .inl rfl
    · cases h
  · simp only [Lexeme.symbol?] at h
    split at h <;> cases h
    rename_i hc
    exact .inr (.inr (.inl ⟨List.contains_iff_mem.1 hc, rfl⟩))
  · unfold Lexeme.quoted? at h
    split at h
    · rename_i heq
      obtain ⟨rfl, rfl⟩ := List.cons.inj heq
      cases h
      exact .inr (.inr (.inr ⟨rfl, rfl⟩))
    · cases h
  · simp only [Lexeme.word?] at h
    split at h <;> cases h
    refine .inr (.inl ⟨rfl, ?_⟩)
    rw [String.toList_ofList]
    exact List.takeWhile_append_dropWhile.symm

/-- A character that is neither reserved nor a quotation mark begins a word. -/
theorem exists_word_of_head {c : Char} (hc : isReserved c = false) (hquote : c ≠ '"')
    (cs : List Char) : ∃ w ts, tokenize (c :: cs) = w :: ts ∧ w.kind = .word := by
  let p (d : Char) : Bool := !isReserved d
  have hhead : (c :: cs).takeWhile p = c :: cs.takeWhile p := by simp [p, hc]
  have hword : IsWord ((c :: cs).takeWhile p) := by
    refine ⟨by simp [hhead], fun d hd => ?_, by simp [hhead, hquote]⟩
    simpa [p] using List.all_eq_true.1 List.all_takeWhile d hd
  have hends : EndsWord ((c :: cs).dropWhile p) := by
    intro d hd
    have hnot := List.head?_dropWhile_not p (c :: cs)
    rw [Option.mem_def.1 hd] at hnot
    simpa [p] using hnot
  refine ⟨⟨.word, String.ofList ((c :: cs).takeWhile p)⟩, tokenize ((c :: cs).dropWhile p), ?_, rfl⟩
  rw [← tokenize_word hword hends, List.takeWhile_append_dropWhile]

/-- The text ends, if it is not empty, in a blank or in a sign, which ends every token. -/
def EndsToken (cs : List Char) : Prop := ∀ c ∈ cs.getLast?, c ∈ [' ', '=', '<', '>']

theorem EndsToken.of_suffix {cs ds : List Char} (h : EndsToken cs) (hsuffix : ds <:+ cs) :
    EndsToken ds := by
  obtain ⟨es, rfl⟩ := hsuffix
  intro c hc
  refine h c ?_
  rw [List.getLast?_append, Option.mem_def.1 hc]
  rfl

theorem EndsToken.exists_of_forall {c : Char} {cs : List Char} {p : Char → Bool}
    (h : EndsToken (c :: cs)) (hp : ∀ d ∈ [' ', '=', '<', '>'], p d = false) :
    ∃ d ∈ c :: cs, p d = false := by
  have hlast := List.getLast?_eq_some_getLast (List.cons_ne_nil c cs)
  exact ⟨_, List.getLast_mem _, hp _ (h _ hlast)⟩

namespace Lexeme

/-- The token with more text behind it. -/
def withMore (rest : List Char) (x : Lexeme) : Lexeme := (x.1, x.2 ++ rest)

variable {c : Char} {cs rest : List Char}

theorem comparison?_more (hrest : rest.head? ≠ some '=') :
    comparison? (c :: cs ++ rest) = (comparison? (c :: cs)).map (withMore rest) := by
  have hsingle {ds es : List Char} (hds : ds.head? ≠ some '=') (hes : es.head? ≠ some '=')
      (heq : ds = es ++ rest) :
      comparison? (c :: ds) = (comparison? (c :: es)).map (withMore rest) := by
    rw [comparison?_of_head hds, comparison?_of_head hes, heq]
    split <;> rfl
  cases cs with
  | nil => exact hsingle hrest (by simp) rfl
  | cons d ds =>
    by_cases hd : d = '='
    · rw [hd]
      simp only [comparison?, List.cons_append]
      split <;> rfl
    · exact hsingle (by simpa using hd) (by simpa using hd) rfl

theorem negatedKeyword?_more (hends : EndsToken (c :: cs)) :
    negatedKeyword? (c :: cs ++ rest) = (negatedKeyword? (c :: cs)).map (withMore rest) := by
  by_cases hc : c = '!'
  · subst hc
    have hall : ∀ d ∈ [' ', '=', '<', '>'], d.isAlpha = false :=
      List.all_iff_forall_prop.1 (by decide)
    have hfails : ∃ d ∈ cs, d.isAlpha = false := by
      cases cs with
      | nil => exact absurd (hends '!' rfl) (by decide)
      | cons d ds =>
        exact (hends.of_suffix (List.suffix_cons _ _)).exists_of_forall hall
    obtain ⟨htake, hdrop, hne⟩ := scan_append hfails rest
    obtain ⟨d, ds, hd⟩ := List.exists_cons_of_ne_nil hne
    simp only [negatedKeyword?, List.cons_append, htake, hdrop, hd, endsKeyword]
    split <;> rfl
  · rw [List.cons_append, negatedKeyword?_of_ne hc, negatedKeyword?_of_ne hc]
    rfl

theorem word?_more (hends : EndsToken (c :: cs)) :
    word? (c :: cs ++ rest) = (word? (c :: cs)).map (withMore rest) := by
  have hall : ∀ d ∈ [' ', '=', '<', '>'], (!isReserved d) = false :=
    List.all_iff_forall_prop.1 (by decide)
  have hfails := hends.exists_of_forall hall
  obtain ⟨htake, hdrop, _⟩ := scan_append hfails rest
  simp only [word?, htake, hdrop]
  split <;> rfl

/-- A token that is read off such a text is read the same way whatever follows the text. -/
theorem read?_more (hquote : c ≠ '"') (hends : EndsToken (c :: cs))
    (hrest : rest.head? ≠ some '=') :
    read? (c :: cs ++ rest) = (read? (c :: cs)).map (withMore rest) := by
  have hsym : symbol? (c :: cs ++ rest) = (symbol? (c :: cs)).map (withMore rest) := by
    simp only [symbol?, List.cons_append]
    split <;> rfl
  have hq : quoted? (c :: cs ++ rest) = (quoted? (c :: cs)).map (withMore rest) := by
    rw [List.cons_append, quoted?_of_ne hquote, quoted?_of_ne hquote]
    rfl
  simp only [read?, comparison?_more hrest, negatedKeyword?_more hends, hsym, hq,
    word?_more hends, Option.map_or]

/-- A token leaves the end of the text, and a quotation begins with its mark. -/
theorem shape_of_read? {x : Lexeme} (h : read? cs = some x) :
    x.2 <:+ cs ∧ (x.1.kind = .quoted → cs.head? = some '"') := by
  simp only [read?, Option.or_eq_some_iff] at h
  rcases h with h | ⟨_, h | ⟨_, h | ⟨_, h | ⟨_, h⟩⟩⟩⟩
  · cases cs with
    | nil => cases h
    | cons c cs =>
      simp only [comparison?] at h
      split at h <;> split at h <;> cases h
      · exact ⟨List.suffix_cons _ _ |>.trans (List.suffix_cons _ _), fun hk => by cases hk⟩
      · exact ⟨List.suffix_cons _ _, fun hk => by cases hk⟩
  · unfold negatedKeyword? at h
    split at h
    · simp only at h
      split at h <;> cases h
      exact ⟨(List.dropWhile_suffix _).trans (List.suffix_cons _ _), fun hk => by cases hk⟩
    · cases h
  · cases cs with
    | nil => cases h
    | cons c cs =>
      simp only [symbol?] at h
      split at h <;> cases h
      exact ⟨List.suffix_cons _ _, fun hk => by cases hk⟩
  · unfold quoted? at h
    split at h <;> cases h
    exact ⟨(unquote_suffix _).trans (List.suffix_cons _ _), fun _ => rfl⟩
  · simp only [word?] at h
    split at h <;> cases h
    exact ⟨List.dropWhile_suffix _, fun hk => by cases hk⟩

end Lexeme

/-- The text is split apart from what follows it, and there is no quotation in it. -/
def Separates (cs : List Char) : Prop :=
  ∃ ts, (∀ t ∈ ts, t.kind ≠ .quoted) ∧
    ∀ rest, rest.head? ≠ some '=' → tokenize (cs ++ rest) = ts ++ tokenize rest

theorem separates_of_endsToken : (cs : List Char) → '"' ∉ cs → EndsToken cs → Separates cs
  | [] => fun _ _ => ⟨[], by simp, fun _ _ => rfl⟩
  | c :: cs => fun hquote hends => by
    by_cases hblank : isBlank c = true
    · obtain ⟨ts, hts, htok⟩ := separates_of_endsToken cs (fun h => hquote (by simp [h]))
        (hends.of_suffix (List.suffix_cons c cs))
      refine ⟨ts, hts, ?_⟩
      intro rest hrest
      rw [List.cons_append, tokenize_blank hblank, htok rest hrest]
    · have hblank : isBlank c = false := by simpa using hblank
      have hc : c ≠ '"' := by
        rintro rfl
        exact hquote (by simp)
      obtain ⟨x, hx⟩ := Lexeme.exists_read? hblank cs
      obtain ⟨hsuffix, hmark⟩ := Lexeme.shape_of_read? hx
      have hlt := Lexeme.length_lt_of_read? hx
      obtain ⟨ts, hts, htok⟩ := separates_of_endsToken x.2 (fun h => hquote (hsuffix.subset h))
        (hends.of_suffix hsuffix)
      refine ⟨x.1 :: ts, ?_, ?_⟩
      · refine List.forall_mem_cons.2 ⟨fun hk => hc ?_, hts⟩
        simpa using hmark hk
      · intro rest hrest
        have hread := Lexeme.read?_more hc hends hrest
        rw [hx] at hread
        rw [List.cons_append] at hread ⊢
        rw [tokenize_of_read? hblank hread]
        exact congrArg (x.1 :: ·) (htok rest hrest)
termination_by cs => cs.length
decreasing_by
  · exact Nat.lt_succ_self cs.length
  · exact hlt

/-- The last character that is no blank is no symbol. -/
def EndsVisibly (cs : List Char) : Prop :=
  ∃ pre c bs, cs = pre ++ c :: bs ∧ (∀ b ∈ bs, isBlank b = true) ∧ isBlank c = false ∧
    c ∉ Lexeme.symbols

theorem tokenize_blanks {bs : List Char} (h : ∀ b ∈ bs, isBlank b = true) : tokenize bs = [] := by
  induction bs with
  | nil => exact tokenize_nil
  | cons b bs ih =>
    rw [tokenize_blank (h b (by simp))]
    exact ih fun c hc => h c (by simp [hc])

theorem EndsVisibly.exists_last {cs : List Char} (h : EndsVisibly cs) :
    ∃ ts o, tokenize cs = ts ++ [o] ∧ o.kind ≠ .symbol := by
  obtain ⟨pre, d, bs, hcs, hbs, hd, hsymbol⟩ := h
  fun_induction tokenize cs generalizing pre with
  | case1 => simp at hcs
  | case2 c cs hb ih =>
    rcases pre with _ | ⟨b, pre⟩
    · rw [(List.cons.inj hcs).1, hd] at hb
      cases hb
    · exact ih pre (List.cons.inj hcs).2
  | case3 c cs hb x hx ih =>
    obtain ⟨used, hused⟩ := (Lexeme.shape_of_read? hx).1
    rcases exists_of_append_cons (hcs.symm.trans hused.symm) with ⟨es, rfl, hes⟩ | ⟨es, rfl, hes⟩
    · obtain ⟨ts, o, hts, ho⟩ := ih es hes
      exact ⟨x.1 :: ts, o, by rw [hts]; rfl, ho⟩
    · have hnil := tokenize_blanks fun b hb' => hbs b (hes ▸ List.mem_append_right es hb')
      refine ⟨[], x.1, by rw [hnil]; rfl, fun hk => ?_⟩
      rcases cases_of_read? hx with hk' | ⟨hk', _⟩ | ⟨hc, rfl⟩ | ⟨_, rfl⟩
      · simp [hk] at hk'
      · simp [hk] at hk'
      · have hused : pre ++ d :: es ++ cs = [c] ++ cs := hused
        have hone : pre ++ d :: es = [c] := List.append_cancel_right hused
        obtain ⟨rfl, hone⟩ : pre = [] ∧ d :: es = [c] := by
          rcases pre with _ | ⟨b, pre⟩
          · exact ⟨rfl, hone⟩
          · simp at hone
        obtain ⟨rfl, _⟩ := List.cons.inj hone
        exact hsymbol hc
      · cases hk
  | case4 c cs hb hnone => exact absurd hnone (Lexeme.read?_ne_none hb cs)

/-- The text is split apart from what follows it. There is no quotation in it, and its last token
is no symbol. -/
def Precedes (cs : List Char) : Prop :=
  ∃ ts o, (∀ t ∈ ts ++ [o], t.kind ≠ .quoted) ∧ o.kind ≠ .symbol ∧
    ∀ rest, rest.head? ≠ some '=' → tokenize (cs ++ rest) = ts ++ o :: tokenize rest

theorem Separates.precedes {cs : List Char} (h : Separates cs) (hv : EndsVisibly cs) :
    Precedes cs := by
  obtain ⟨us, hus, htok⟩ := h
  obtain ⟨ts, o, hts, ho⟩ := hv.exists_last
  have hlast : us = ts ++ [o] := by
    rw [← hts]
    simpa [tokenize_nil] using (htok [] (by simp)).symm
  refine ⟨ts, o, hlast ▸ hus, ho, fun rest hrest => ?_⟩
  rw [htok rest hrest, hlast, List.append_assoc]
  rfl

end BoolQuery.Query
