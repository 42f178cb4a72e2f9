import BoolQuery.Proofs.Lists
import BoolQuery.Query.Lexeme
import BoolQuery.Text.Quoted
import Mathlib.Data.Bool.AllAny

/-! How texts are split that are put together from words, quotations and signs: each piece
gives its token as long as what follows cannot run into it. -/

namespace BoolQuery

namespace Text

theorem hexValue?_digitChar : ∀ n < 16, hexValue? (Nat.digitChar n) = some n := by decide

theorem hexValue?_hexDigit (n : Nat) : hexValue? (hexDigit n) = some (n % 16) :=
  hexValue?_digitChar _ (Nat.mod_lt _ (by decide))

theorem hexUnit?_hexDigit {n : Nat} (h : n < 32) :
    hexUnit? '0' '0' (hexDigit (n / 16)) (hexDigit n) = some n := by
  have h0 : hexValue? '0' = some 0 := rfl
  simp only [hexUnit?, h0, hexValue?_hexDigit, Option.bind_eq_bind, Option.bind_some]
  congr 1
  omega

theorem isSurrogate_of_lt {n : Nat} (h : n < 0xD800) : isSurrogate n = false := by
  simp only [isSurrogate, isHighSurrogate, isLowSurrogate, Bool.or_eq_false_iff,
    Bool.and_eq_false_iff, decide_eq_false_iff_not]
  omega

end Text

namespace Query
open Text

namespace Lexeme

theorem unitChar_toNat (c : Char) (h : c.toNat < 32) : unitChar c.toNat = c := by
  have hs : isSurrogate c.toNat = false := isSurrogate_of_lt (Nat.lt_trans h (by decide))
  simp [unitChar, hs, Char.ofNat_toNat]

/-- Every comparison sign begins with one of these. -/
theorem comparison?_of_notMem {c : Char} (hc : c ∉ ['!', '=', '<', '>']) (cs : List Char) :
    comparison? (c :: cs) = none := by
  have hsingle : c ∉ ['=', '<', '>'] := fun h => hc (List.mem_cons_of_mem _ h)
  simp only [comparison?]
  split
  · rw [if_neg (mt List.contains_iff_mem.1 hc)]
  · rw [if_neg (mt List.contains_iff_mem.1 hsingle)]

theorem comparison?_of_head {c : Char} {cs : List Char} (hcs : cs.head? ≠ some '=') :
    comparison? (c :: cs) =
      if ['=', '<', '>'].contains c then some (operator [c] cs) else none := by
  simp only [comparison?]
  split
  · simp at hcs
  · rfl

theorem negatedKeyword?_of_ne {c : Char} (hc : c ≠ '!') (cs : List Char) :
    negatedKeyword? (c :: cs) = none := by
  simp only [negatedKeyword?]
  split
  · rename_i heq
    exact absurd (List.cons.inj heq).1 hc
  · rfl

/-- The `!` of `!=` is no negation. -/
theorem head?_ne_of_negatedKeyword? {cs : List Char} {x : Lexeme}
    (h : negatedKeyword? ('!' :: cs) = some x) : cs.head? ≠ some '=' := by
  intro hhead
  obtain ⟨ds, rfl⟩ := List.head?_eq_some_iff.1 hhead
  simp [negatedKeyword?, negatedKeywords] at h

theorem quoted?_of_ne {c : Char} (hc : c ≠ '"') (cs : List Char) : quoted? (c :: cs) = none := by
  simp only [quoted?]
  split
  · rename_i heq
    exact absurd (List.cons.inj heq).1 hc
  · rfl

theorem unquote_cons {c : Char} (cs : List Char) (hq : c ≠ '"') (hb : c ≠ '\\') :
    unquote (c :: cs) = consChar c (unquote cs) := by
  rw [unquote.eq_def]
  simp [hq, hb]

theorem unquote_closing (cs : List Char) : unquote ('"' :: cs) = ([], cs) := by
  rw [unquote.eq_def]
  rfl

theorem unquote_escaped {e : Char} (he : e ≠ 'u') (cs : List Char) :
    unquote ('\\' :: e :: cs) = consChar (unescape e) (unquote cs) := by
  rw [unquote.eq_def]
  simp [he]

theorem unquote_unit {h₁ h₂ h₃ h₄ : Char} {n : Nat} (h : hexUnit? h₁ h₂ h₃ h₄ = some n)
    (cs : List Char) : unquote ('\\' :: 'u' :: h₁ :: h₂ :: h₃ :: h₄ :: cs) =
      consChar (unitChar n) (unquote cs) := by
  rw [unquote.eq_def]
  simp [h]

theorem unquote_escape (c : Char) (cs : List Char) :
    unquote (escape c ++ cs) = consChar c (unquote cs) := by
  unfold escape
  split
  case h_8 hq hb _ _ _ _ _ =>
    split
    · rename_i hlt
      have hunit := unquote_unit (hexUnit?_hexDigit hlt) cs
      rwa [unitChar_toNat c hlt] at hunit
    · exact unquote_cons cs hq hb
  all_goals exact unquote_escaped (by decide) cs

/-- Unquoting takes back what quoting did, whatever follows. -/
theorem unquote_quote (cs rest : List Char) :
    unquote (cs.flatMap escape ++ '"' :: rest) = (cs, rest) := by
  induction cs with
  | nil => exact unquote_closing rest
  | cons c cs ih =>
    rw [List.flatMap_cons, List.append_assoc, unquote_escape, ih]
    rfl

end Lexeme

theorem tokenize_nil : tokenize [] = [] := by
  rw [tokenize.eq_def]

theorem tokenize_blank {c : Char} (h : isBlank c = true) (cs : List Char) :
    tokenize (c :: cs) = tokenize cs := by
  rw [tokenize.eq_def]
  exact if_pos h

theorem tokenize_of_read? {c : Char} {cs : List Char} {x : Lexeme} (hb : isBlank c = false)
    (h : Lexeme.read? (c :: cs) = some x) : tokenize (c :: cs) = x.1 :: tokenize x.2 := by
  rw [tokenize.eq_def]
  simp only [hb, Bool.false_eq_true, if_false]
  split
  · rename_i y hy
    obtain rfl : x = y := Option.some.inj (h.symm.trans hy)
    rfl
  · rename_i hn
    rw [h] at hn
    cases hn

theorem isBlank_eq_false_of_mem_symbols {c : Char} (h : c ∈ Lexeme.symbols) :
    isBlank c = false := by
  have hall : ∀ d ∈ Lexeme.symbols, isBlank d = false := List.all_iff_forall_prop.1 (by decide)
  exact hall c h

/-- A symbol other than `!` is a token whatever follows it. -/
theorem tokenize_symbol {c : Char} (hc : c ∈ Lexeme.symbols) (hbang : c ≠ '!')
    (cs : List Char) : tokenize (c :: cs) = ⟨.symbol, String.ofList [c]⟩ :: tokenize cs := by
  have hcmp : Lexeme.comparison? (c :: cs) = none := by
    have hall : ∀ d ∈ ['=', '<', '>'], d ∉ Lexeme.symbols :=
      List.all_iff_forall_prop.1 (by decide)
    refine Lexeme.comparison?_of_notMem (fun h => ?_) cs
    exact hall c ((List.mem_cons.1 h).resolve_left hbang) hc
  have hneg := Lexeme.negatedKeyword?_of_ne hbang cs
  refine tokenize_of_read? (x := (⟨.symbol, String.ofList [c]⟩, cs))
    (isBlank_eq_false_of_mem_symbols hc) ?_
  simp [Lexeme.read?, hcmp, hneg, Lexeme.symbol?, hc]

/-- A `!` is a token of its own where it does not begin an operator. -/
theorem tokenize_bang {cs : List Char} (heq : cs.head? ≠ some '=')
    (hkey : Lexeme.negatedKeyword? ('!' :: cs) = none) :
    tokenize ('!' :: cs) = ⟨.symbol, "!"⟩ :: tokenize cs := by
  have hcmp : Lexeme.comparison? ('!' :: cs) = none := Lexeme.comparison?_of_head heq
  refine tokenize_of_read? (x := (⟨.symbol, "!"⟩, cs)) (by decide) ?_
  simp [Lexeme.read?, hcmp, hkey, Lexeme.symbol?, Lexeme.symbols]

/-- Whether a word can end before this text. -/
def EndsWord (rest : List Char) : Prop := ∀ c ∈ rest.head?, isReserved c = true

/-- Whether the characters are read as one word. -/
structure IsWord (cs : List Char) : Prop where
  ne_nil : cs ≠ []
  plain : ∀ c ∈ cs, isReserved c = false
  unquoted : cs.head? ≠ some '"'

theorem EndsWord.cons {c : Char} (h : isReserved c = true) (cs : List Char) :
    EndsWord (c :: cs) := by
  intro d hd
  obtain rfl : c = d := by simpa using hd
  exact h

theorem takeWhile_of_endsWord {cs rest : List Char} (h : ∀ c ∈ cs, isReserved c = false)
    (hrest : EndsWord rest) :
    (cs ++ rest).takeWhile (fun c => !isReserved c) = cs ∧
      (cs ++ rest).dropWhile (fun c => !isReserved c) = rest := by
  refine scan_of_forall ?_ ?_
  · exact fun c hc => by simp [h c hc]
  · exact fun c hc => by simp [hrest c hc]

theorem reserved_of_mem_wordEnders {c : Char} (h : c ∈ wordEnders) : isReserved c = true := by
  simp [isReserved, h]

theorem not_mem_of_not_reserved {c : Char} (h : isReserved c = false) :
    isBlank c = false ∧ c ∉ wordEnders := by
  simpa [isReserved] using h

/-- A word is a token where a character that ends words, or nothing, follows it. -/
theorem tokenize_word {cs rest : List Char} (h : IsWord cs) (hrest : EndsWord rest) :
    tokenize (cs ++ rest) = ⟨.word, String.ofList cs⟩ :: tokenize rest := by
  obtain ⟨c, ds, rfl⟩ := List.exists_cons_of_ne_nil h.ne_nil
  obtain ⟨hblank, hend⟩ := not_mem_of_not_reserved (h.plain c (by simp))
  obtain ⟨htake, hdrop⟩ := takeWhile_of_endsWord h.plain hrest
  have hquote : c ≠ '"' := by simpa using h.unquoted
  simp only [wordEnders, List.mem_cons, List.not_mem_nil, or_false, not_or] at hend
  have hcmp : Lexeme.comparison? (c :: (ds ++ rest)) = none :=
    Lexeme.comparison?_of_notMem (by simp [hend]) _
  have hneg := Lexeme.negatedKeyword?_of_ne hend.2.2.1 (ds ++ rest)
  have hsym : Lexeme.symbol? (c :: (ds ++ rest)) = none := by
    simp [Lexeme.symbol?, Lexeme.symbols, hend]
  have hq := Lexeme.quoted?_of_ne hquote (ds ++ rest)
  have hw : Lexeme.word? (c :: (ds ++ rest)) =
      some (⟨.word, String.ofList (c :: ds)⟩, rest) := by
    rw [← List.cons_append]
    simp only [Lexeme.word?, htake, hdrop]
    rfl
  refine tokenize_of_read? (x := (⟨.word, String.ofList (c :: ds)⟩, rest)) hblank ?_
  simp [Lexeme.read?, hcmp, hneg, hsym, hq, hw]

/-- A quotation mark begins a quotation, however that goes on. -/
theorem tokenize_quotation (cs : List Char) : tokenize ('"' :: cs) =
    ⟨.quoted, String.ofList (Lexeme.unquote cs).1⟩ :: tokenize (Lexeme.unquote cs).2 := by
  have hcmp : Lexeme.comparison? ('"' :: cs) = none := Lexeme.comparison?_of_notMem (by decide) cs
  refine tokenize_of_read?
    (x := (⟨.quoted, String.ofList (Lexeme.unquote cs).1⟩, (Lexeme.unquote cs).2)) (by decide) ?_
  simp [Lexeme.read?, hcmp, Lexeme.quoted?, Lexeme.negatedKeyword?, Lexeme.symbol?, Lexeme.symbols]

theorem tokenize_quote (cs rest : List Char) :
    tokenize (quote cs ++ rest) = ⟨.quoted, String.ofList cs⟩ :: tokenize rest := by
  have heq : quote cs ++ rest = '"' :: (cs.flatMap escape ++ '"' :: rest) := by simp [quote]
  rw [heq, tokenize_quotation, Lexeme.unquote_quote]

/-- The signs that compare without letters. -/
def comparisonSigns : List (List Char) :=
  [['='], ['=', '='], ['!', '='], ['<'], ['<', '='], ['>'], ['>', '=']]

/-- A comparison sign is a token where no `=` follows it. -/
theorem tokenize_comparison {sign rest : List Char} (h : sign ∈ comparisonSigns)
    (hrest : rest.head? ≠ some '=') :
    tokenize (sign ++ rest) = ⟨.operator, String.ofList sign⟩ :: tokenize rest := by
  have hread : Lexeme.comparison? (sign ++ rest) =
      some (⟨.operator, String.ofList sign⟩, rest) := by
    simp only [comparisonSigns, List.mem_cons, List.not_mem_nil, or_false] at h
    rcases h with rfl | rfl | rfl | rfl | rfl | rfl | rfl <;>
      simp only [Lexeme.comparison?, List.cons_append, List.nil_append] <;> split <;>
      simp_all [Lexeme.operator]
  obtain ⟨c, cs, hcons⟩ : ∃ c cs, sign ++ rest = c :: cs ∧ isBlank c = false := by
    simp only [comparisonSigns, List.mem_cons, List.not_mem_nil, or_false] at h
    rcases h with rfl | rfl | rfl | rfl | rfl | rfl | rfl <;> exact ⟨_, _, rfl, by decide⟩
  rw [hcons.1] at hread ⊢
  refine tokenize_of_read? (x := (⟨.operator, String.ofList sign⟩, rest)) hcons.2 ?_
  simp [Lexeme.read?, hread]

/-- A negated keyword is a token of its own where it may end. -/
theorem tokenize_negatedKeyword {c : Char} {cs : List Char} {x : Lexeme}
    (h : Lexeme.negatedKeyword? (c :: cs) = some x) :
    tokenize (c :: cs) = x.1 :: tokenize x.2 := by
  obtain rfl : c = '!' := by
    refine Decidable.byContradiction fun hc => ?_
    rw [Lexeme.negatedKeyword?_of_ne hc] at h
    cases h
  have hcmp : Lexeme.comparison? ('!' :: cs) = none :=
    Lexeme.comparison?_of_head (Lexeme.head?_ne_of_negatedKeyword? h)
  refine tokenize_of_read? (by decide) ?_
  simp [Lexeme.read?, hcmp, h]

end Query

end BoolQuery
