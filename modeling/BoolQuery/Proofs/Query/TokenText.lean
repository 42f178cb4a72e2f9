import BoolQuery.Proofs.Query.Layout
import BoolQuery.Proofs.Query.Splitting

/-! Tokens and the text that they are read from. Whatever the text, its tokens are of a few known
shapes, nothing but blanks is passed over, and the tokens written one after another are read as the
same tokens again. -/

namespace BoolQuery.Query
open Text

/-- The tokens that the readers take off a text, one after another, down to its end. Where no reader
succeeds there is no way on. -/
inductive Splits : List Char → List Token → Prop
  | nil : Splits [] []
  | blank {c cs ts} : isBlank c = true → Splits cs ts → Splits (c :: cs) ts
  | token {c cs ts x} : isBlank c = false → Lexeme.read? (c :: cs) = some x → Splits x.2 ts →
      Splits (c :: cs) (x.1 :: ts)

theorem splits_tokenize (cs : List Char) : Splits cs (tokenize cs) := by
  fun_induction tokenize cs with
  | case1 => exact .nil
  | case2 c cs hblank ih => exact .blank hblank ih
  | case3 c cs hblank x hx ih => exact .token (by simpa using hblank) hx ih
  | case4 c cs hblank hnone => exact absurd hnone (Lexeme.read?_ne_none hblank cs)

namespace Token

/-- A word or an operator that can be read as such, one of the symbols, or a quotation. -/
structure IsLexical (t : Token) : Prop where
  formed : t.IsFormed
  symbol : t.kind = .symbol → ∃ c ∈ Lexeme.symbols, t.text.toList = [c]

/-- A token is read from its own text, a negated keyword from its text in any letter case. -/
def ReadFrom (t : Token) (piece : List Char) : Prop :=
  piece = t.text.toList ∨
    t.kind = .operator ∧ t.text.toList ∈ Lexeme.negatedKeywords.map ('!' :: ·) ∧
      piece.map Char.toUpper = t.text.toList

end Token

variable {c : Char} {cs : List Char} {x : Lexeme} {t : Token} {ts : List Token}

theorem Lexeme.isLexical_of_read? (h : read? (c :: cs) = some x) : x.1.IsLexical := by
  refine ⟨isFormed_of_read? h, fun hsymbol => ?_⟩
  rcases cases_of_read? h with hop | ⟨hword, _⟩ | ⟨hc, rfl⟩ | ⟨_, rfl⟩
  · rw [hop] at hsymbol
    cases hsymbol
  · rw [hword] at hsymbol
    cases hsymbol
  · exact ⟨c, hc, String.toList_ofList⟩
  · cases hsymbol

theorem Splits.isLexical (h : Splits cs ts) : ∀ t ∈ ts, t.IsLexical := by
  induction h with
  | nil => simp
  | blank _ _ ih => exact ih
  | token _ hx _ ih => exact List.forall_mem_cons.2 ⟨Lexeme.isLexical_of_read? hx, ih⟩

/-- A token as a text that it is read from; for a quotation one of many. -/
def Token.written (t : Token) : List Char :=
  match t.kind with
  | .quoted => quote t.text.toList
  | .symbol | .word | .operator => t.text.toList

/-- The tokens with a space between each two of them. -/
def spaced (ts : List Token) : List Char := [' '].intercalate (ts.map Token.written)

theorem lexes_symbol (hc : c ∈ Lexeme.symbols) : Lexes [c] [⟨.symbol, String.ofList [c]⟩] := by
  intro rest hrest
  by_cases hbang : c = '!'
  · subst hbang
    exact tokenize_bang hrest.head?_ne (negatedKeyword?_append hrest [])
  · exact tokenize_symbol hc hbang rest

theorem lexes_operator (h : cs ∈ comparisonSigns ++ Lexeme.negatedKeywords.map ('!' :: ·)) :
    Lexes cs [⟨.operator, String.ofList cs⟩] := by
  intro rest hrest
  rcases List.mem_append.1 h with hsign | hkey
  · exact tokenize_comparison hsign hrest.head?_ne
  · obtain ⟨word, hword, rfl⟩ := List.mem_map.1 hkey
    have hread : Lexeme.negatedKeyword? ('!' :: word) =
        some (⟨.operator, String.ofList ('!' :: word)⟩, []) := by
      simp only [Lexeme.negatedKeywords, List.mem_cons, List.not_mem_nil, or_false] at hword
      obtain rfl | rfl := hword <;> rfl
    have happend := negatedKeyword?_append hrest word
    rw [hread] at happend
    exact tokenize_negatedKeyword happend

theorem Token.IsLexical.lexes (h : t.IsLexical) : Lexes t.written [t] := by
  obtain ⟨kind, text⟩ := t
  cases kind with
  | symbol =>
    obtain ⟨c, hc, htext⟩ := h.symbol rfl
    have hlex := lexes_symbol hc
    rwa [← htext, String.ofList_toList] at hlex
  | word =>
    intro rest hrest
    have hlex := tokenize_word h.formed hrest.endsWord
    rwa [String.ofList_toList] at hlex
  | quoted =>
    intro rest _
    have hlex := tokenize_quote text.toList rest
    rwa [String.ofList_toList] at hlex
  | operator =>
    have hlex := lexes_operator h.formed
    rwa [String.ofList_toList] at hlex

/-- What is written for tokens is read as these tokens. -/
theorem tokenize_spaced (h : ∀ t ∈ ts, t.IsLexical) : tokenize (spaced ts) = ts := by
  induction ts with
  | nil => exact tokenize_nil
  | cons t ts ih =>
    obtain ⟨ht, hts⟩ := List.forall_mem_cons.1 h
    cases ts with
    | nil => simpa [spaced, List.intercalate] using ht.lexes.tokenize
    | cons u us =>
      have hsplit : spaced (t :: u :: us) = t.written ++ ' ' :: spaced (u :: us) := by
        simp [spaced, List.intercalate]
      rw [hsplit, ht.lexes _ (.space _), tokenize_space, ih hts]
      rfl

/-- The tokens of any text, written with spaces between them, are read as they are. -/
theorem tokenize_spaced_tokenize (cs : List Char) : tokenize (spaced (tokenize cs)) = tokenize cs :=
  tokenize_spaced (splits_tokenize cs).isLexical

/-- No blank is in the text of a token, unless it is quoted. -/
theorem Token.IsLexical.solid (h : t.IsLexical) (hkind : t.kind ≠ .quoted) :
    ∀ c ∈ t.text.toList, isBlank c = false := by
  intro c hc
  obtain ⟨kind, text⟩ := t
  cases kind with
  | symbol =>
    obtain ⟨d, hd, htext⟩ := h.symbol rfl
    rw [htext] at hc
    rw [List.mem_singleton.1 hc]
    exact isBlank_eq_false_of_mem_symbols hd
  | word => exact (not_mem_of_not_reserved (h.formed.plain c hc)).1
  | quoted => exact absurd rfl hkind
  | operator =>
    have hall : (comparisonSigns ++ Lexeme.negatedKeywords.map ('!' :: ·)).all
        (fun sign => sign.all fun d => !isBlank d) = true := by decide
    simpa using List.all_eq_true.1 (List.all_eq_true.1 hall _ h.formed) c hc

/-- A token takes a piece without blanks off the text, and is read from all of it. -/
structure Lexeme.TakesPiece (cs : List Char) (x : Lexeme) (piece : List Char) : Prop where
  split : cs = piece ++ x.2
  readFrom : x.1.ReadFrom piece
  solid : ∀ c ∈ piece, isBlank c = false

namespace Lexeme

theorem split_of_comparison? (h : comparison? (c :: cs) = some x) :
    c :: cs = x.1.text.toList ++ x.2 := by
  simp only [comparison?] at h
  split at h <;> split at h <;> cases h <;> simp [operator]

theorem takesPiece_of_negatedKeyword? (h : negatedKeyword? (c :: cs) = some x) :
    ∃ piece, TakesPiece (c :: cs) x piece := by
  unfold negatedKeyword? at h
  split at h
  case h_2 => cases h
  rename_i ds heq
  simp only at h
  split at h
  case isFalse => cases h
  rename_i hword
  cases h
  have hmem := List.contains_iff_mem.1 (Bool.and_eq_true_iff.1 hword).1
  refine ⟨'!' :: ds.takeWhile Char.isAlpha, ?_, .inr ⟨rfl, ?_, ?_⟩, ?_⟩
  · rw [heq, List.cons_append]
    exact congrArg _ List.takeWhile_append_dropWhile.symm
  · rw [operator, String.toList_ofList]
    exact List.mem_map_of_mem hmem
  · rw [operator, String.toList_ofList]
    rfl
  · refine List.forall_mem_cons.2 ⟨rfl, fun d hd => isBlank_of_isAlphanum ?_⟩
    exact isAlphanum_iff.2 (.inl (List.all_eq_true.1 List.all_takeWhile d hd))

theorem takesPiece_of_read? (hquote : c ≠ '"') (h : read? (c :: cs) = some x) :
    ∃ piece, TakesPiece (c :: cs) x piece := by
  have hkind : x.1.kind ≠ .quoted := by
    intro hquoted
    exact hquote (by simpa using (shape_of_read? h).2 hquoted)
  have hown (hsplit : c :: cs = x.1.text.toList ++ x.2) : ∃ piece, TakesPiece (c :: cs) x piece :=
    ⟨_, hsplit, .inl rfl, (isLexical_of_read? h).solid hkind⟩
  simp only [read?, Option.or_eq_some_iff] at h
  rcases h with h | ⟨_, h | ⟨_, h | ⟨_, h | ⟨_, h⟩⟩⟩⟩
  · exact hown (split_of_comparison? h)
  · exact takesPiece_of_negatedKeyword? h
  · simp only [symbol?] at h
    split at h <;> cases h
    exact hown (by simp)
  · rw [quoted?_of_ne hquote] at h
    cases h
  · simp only [word?] at h
    split at h <;> cases h
    refine hown ?_
    rw [String.toList_ofList]
    exact List.takeWhile_append_dropWhile.symm

end Lexeme

theorem Splits.exists_pieces (h : Splits cs ts) (hquote : '"' ∉ cs) :
    ∃ pieces, List.Forall₂ Token.ReadFrom ts pieces ∧
      pieces.flatten = cs.filter fun c => !isBlank c := by
  induction h with
  | nil => exact ⟨[], .nil, rfl⟩
  | blank hblank _ ih =>
    obtain ⟨pieces, hread, hflat⟩ := ih fun hmem => hquote (by simp [hmem])
    exact ⟨pieces, hread, by simp [hblank, hflat]⟩
  | token _ hx _ ih =>
    have hc := List.ne_of_not_mem_cons hquote
    obtain ⟨piece, hsplit, hfrom, hsolid⟩ := Lexeme.takesPiece_of_read? hc.symm hx
    rw [hsplit] at hquote ⊢
    obtain ⟨pieces, hread, hflat⟩ := ih fun hmem => hquote (by simp [hmem])
    refine ⟨piece :: pieces, .cons hfrom hread, ?_⟩
    have hpiece : piece.filter (fun c => !isBlank c) = piece :=
      List.filter_eq_self.2 fun c hc => by simp [hsolid c hc]
    rw [List.flatten_cons, hflat, List.filter_append, hpiece]

/-- Some reader succeeds wherever a token is due, and every token is of a known shape. A text
without quotation marks is made up of the pieces that its tokens are read from, blanks left aside. -/
theorem tokenize_lossless (cs : List Char) :
    Splits cs (tokenize cs) ∧ (∀ t ∈ tokenize cs, t.IsLexical) ∧
      ('"' ∉ cs → ∃ pieces, List.Forall₂ Token.ReadFrom (tokenize cs) pieces ∧
        pieces.flatten = cs.filter fun c => !isBlank c) := by
  have hsplits := splits_tokenize cs
  exact ⟨hsplits, hsplits.isLexical, hsplits.exists_pieces⟩

/-- A negated keyword that is not in capitals, between two words. -/
theorem tokenize_lossless_like :
    let cs := "x !Like(y)".toList
    '"' ∉ cs ∧ ∃ pieces, List.Forall₂ Token.ReadFrom (tokenize cs) pieces ∧
      pieces.flatten = "x!Like(y)".toList := by
  intro cs
  have hquote : '"' ∉ cs := by decide
  exact ⟨hquote, (tokenize_lossless cs).2.2 hquote⟩

end BoolQuery.Query
