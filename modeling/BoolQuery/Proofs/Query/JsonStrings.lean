import BoolQuery.Proofs.Json.ReadBack
import Mathlib.Data.List.Basic

/-! String literals of JSON as quotations in a query. A quotation is read as the text that the
literal denotes, whatever mix of characters and escapes it is spelled with, except that a character
escaped as a pair of code units is read as two letters. -/

namespace BoolQuery

namespace Json
open Text

/-- Four hexadecimal digits and the code unit that they spell. -/
structure HexUnit where
  first : Char
  second : Char
  third : Char
  fourth : Char
  value : Nat
  spelled : hexUnit? first second third fourth = some value

def HexUnit.text (u : HexUnit) : List Char := ['\\', 'u', u.first, u.second, u.third, u.fourth]

/-- One character of a string literal, by the grammar of RFC 8259. -/
inductive Place
  | plain (c : Char) (printable : ¬ c.toNat < 0x20) (unmarked : c ≠ '"' ∧ c ≠ '\\')
  | short (e c : Char) (known : unescape? e = some c)
  | unit (u : HexUnit) (whole : isSurrogate u.value = false)
  /-- A character beyond `U+FFFF` takes two units. -/
  | pair (high low : HexUnit) (opens : isHighSurrogate high.value = true)
      (closes : isLowSurrogate low.value = true)

namespace Place

def text : Place → List Char
  | plain c _ _ => [c]
  | short e _ _ => ['\\', e]
  | unit u _ => u.text
  | pair high low _ _ => high.text ++ low.text

/-- The character that is denoted. -/
def char : Place → Char
  | plain c _ _ => c
  | short _ c _ => c
  | unit u _ => Char.ofNat u.value
  | pair high low _ _ => Char.ofNat (pairCodePoint high.value low.value)

def isPair : Place → Bool
  | pair _ _ _ _ => true
  | _ => false

/-- What a query reads there: to it half of a pair is the letter behind the backslash. -/
def asRead (p : Place) : List Char := if p.isPair then ['u', 'u'] else [p.char]

end Place

def literal (ps : List Place) : List Char := '"' :: (ps.flatMap Place.text ++ ['"'])

theorem unescape_of_unescape? {e c : Char} (h : unescape? e = some c) :
    e ≠ 'u' ∧ Query.Lexeme.unescape e = c := by
  unfold unescape? at h
  split at h
  case h_9 => cases h
  all_goals
    cases h
    exact ⟨by decide, rfl⟩

/-- What a JSON reader takes the place for before it joins the halves of pairs. -/
def Place.letters : Place → Letters
  | .pair high low _ _ => [.half high.value, .half low.value]
  | p => [.char p.char]

theorem readLetters_unit (u : HexUnit) (cs : List Char) :
    readLetters (u.text ++ cs) = consLetter (letterOfUnit u.value) (readLetters cs) := by
  rw [readLetters.eq_def]
  simp [HexUnit.text, u.spelled]

theorem readLetters_place (p : Place) {cs rest : List Char} {ls : Letters}
    (h : readLetters cs = some (ls, rest)) :
    readLetters (p.text ++ cs) = some (p.letters ++ ls, rest) := by
  cases p with
  | plain c printable unmarked =>
    exact (readLetters_cons cs unmarked.1 unmarked.2 printable).trans (by rw [h]; rfl)
  | short e c known =>
    have he : e ≠ 'u' := (unescape_of_unescape? known).1
    exact (readLetters_escaped he known cs).trans (by rw [h]; rfl)
  | unit u whole =>
    rw [Place.text, readLetters_unit, h, letterOfUnit, if_neg (by simp [whole])]
    rfl
  | pair high low opens closes =>
    have hhigh : isSurrogate high.value = true := by simp [isSurrogate, opens]
    have hlow : isSurrogate low.value = true := by simp [isSurrogate, closes]
    rw [Place.text, List.append_assoc, readLetters_unit, readLetters_unit, h, letterOfUnit,
      letterOfUnit, if_pos hhigh, if_pos hlow]
    rfl

theorem pairHalves_letters (p : Place) (ls : Letters) :
    pairHalves (p.letters ++ ls) = .char p.char :: pairHalves ls := by
  cases p with
  | pair high low opens closes =>
    simp [Place.letters, pairHalves, opens, closes, Place.char]
  | plain | short | unit => rfl

theorem readLetters_places (ps : List Place) (rest : List Char) :
    readLetters (ps.flatMap Place.text ++ '"' :: rest) =
      some (ps.flatMap Place.letters, rest) := by
  induction ps with
  | nil =>
    rw [List.flatMap_nil, List.nil_append, readLetters.eq_def]
    rfl
  | cons p ps ih => rw [List.flatMap_cons, List.append_assoc, readLetters_place p ih]; rfl

theorem pairHalves_places (ps : List Place) :
    pairHalves (ps.flatMap Place.letters) = (ps.map Place.char).map Letter.char := by
  induction ps with
  | nil => rfl
  | cons p ps ih => rw [List.flatMap_cons, pairHalves_letters, ih]; rfl

theorem readLetters_nil {cs rest : List Char} (h : readLetters cs = some ([], rest)) :
    cs = '"' :: rest := by
  rw [readLetters.eq_def] at h
  split at h
  · cases h
  split at h
  · rename_i hc
    cases h
    rw [eq_of_beq hc]
  · simp only [consLetter] at h
    repeat' split at h
    all_goals simp at h

theorem consLetter_eq_some_iff {l l' : Letter} {ls : Letters} {rest : List Char}
    {read : Option (Letters × List Char)} :
    consLetter l' read = some (l :: ls, rest) ↔ l = l' ∧ read = some (ls, rest) := by
  cases read with
  | none => simp [consLetter]
  | some read =>
    simp only [consLetter, Option.map_some, Option.some.injEq, List.cons.injEq, Prod.ext_iff,
      eq_comm (a := l), and_assoc]

/-- A letter is read for a place that is no pair, or for half of a pair. -/
theorem readLetters_cases {cs rest : List Char} {l : Letter} {ls : Letters}
    (h : readLetters cs = some (l :: ls, rest)) :
    ∃ ds, readLetters ds = some (ls, rest) ∧
      ((∃ p : Place, l = .char p.char ∧ cs = p.text ++ ds) ∨
        ∃ u : HexUnit, l = .half u.value ∧ cs = u.text ++ ds) := by
  rw [readLetters.eq_def] at h
  split at h
  · cases h
  rename_i c cs
  split at h
  · cases h
  rename_i hquote
  split at h
  case isTrue hback =>
    rw [eq_of_beq hback]
    split at h
    · cases h
    rename_i e after
    split at h
    case isTrue hu =>
      rw [eq_of_beq hu]
      split at h
      case h_2 => cases h
      rename_i h₁ h₂ h₃ h₄ after
      split at h
      case h_2 => cases h
      rename_i n hn
      obtain ⟨rfl, hrest⟩ := consLetter_eq_some_iff.1 h
      let u : HexUnit := ⟨h₁, h₂, h₃, h₄, n, hn⟩
      refine ⟨after, hrest, ?_⟩
      by_cases hhalf : isSurrogate n = true
      · exact .inr ⟨u, if_pos hhalf, rfl⟩
      · exact .inl ⟨.unit u (Bool.eq_false_iff.2 hhalf), if_neg hhalf, rfl⟩
    case isFalse =>
      split at h
      case h_2 => cases h
      rename_i d hd
      obtain ⟨rfl, hrest⟩ := consLetter_eq_some_iff.1 h
      exact ⟨after, hrest, .inl ⟨.short e d hd, rfl, rfl⟩⟩
  case isFalse hback =>
    split at h
    · cases h
    rename_i hprintable
    obtain ⟨rfl, hrest⟩ := consLetter_eq_some_iff.1 h
    have hunmarked : c ≠ '"' ∧ c ≠ '\\' := ⟨by simpa using hquote, by simpa using hback⟩
    exact ⟨cs, hrest, .inl ⟨.plain c hprintable hunmarked, rfl, rfl⟩⟩

theorem exists_places_of_readLetters {ls : Letters} {cs ds rest : List Char}
    (h : readLetters cs = some (ls, rest)) (hds : pairHalves ls = ds.map Letter.char) :
    ∃ ps : List Place, cs = ps.flatMap Place.text ++ '"' :: rest ∧ ds = ps.map Place.char := by
  fun_induction pairHalves ls generalizing cs ds with
  | case1 =>
    obtain rfl : ds = [] := by simpa using hds.symm
    exact ⟨[], readLetters_nil h, rfl⟩
  | case2 high low ls hpair ih =>
    simp only [Bool.and_eq_true] at hpair
    obtain ⟨after, hafter, ⟨p, hp, _⟩ | ⟨u, hu, rfl⟩⟩ := readLetters_cases h
    · cases hp
    obtain ⟨more, hmore, ⟨p, hp, _⟩ | ⟨v, hv, rfl⟩⟩ := readLetters_cases hafter
    · cases hp
    cases hu
    cases hv
    obtain ⟨d, es, rfl, hd, hes⟩ := List.map_eq_cons_iff.1 hds.symm
    obtain ⟨ps, rfl, rfl⟩ := ih hmore hes.symm
    rw [Letter.char.inj hd]
    exact ⟨.pair u v hpair.1 hpair.2 :: ps, by simp [Place.text], rfl⟩
  | case3 | case4 =>
    obtain ⟨d, es, _, hd, _⟩ := List.map_eq_cons_iff.1 hds.symm
    cases hd
  | case5 c ls ih =>
    obtain ⟨after, hafter, ⟨p, hp, rfl⟩ | ⟨u, hu, _⟩⟩ := readLetters_cases h
    · obtain ⟨d, es, rfl, hd, hes⟩ := List.map_eq_cons_iff.1 hds.symm
      obtain ⟨ps, rfl, rfl⟩ := ih hafter hes.symm
      cases hd
      cases hp
      exact ⟨p :: ps, by simp, rfl⟩
    · cases hu

/-- The strings that a JSON reader takes for whole characters are the string literals. -/
theorem readString_eq_some_iff {cs rest ds : List Char} :
    readString cs = some (ds.map Letter.char, rest) ↔
      ∃ ps : List Place, cs = ps.flatMap Place.text ++ '"' :: rest ∧ ds = ps.map Place.char := by
  constructor
  · intro h
    obtain ⟨⟨ls, rest'⟩, hread, heq⟩ := Option.map_eq_some_iff.1 h
    obtain ⟨hds, rfl⟩ := Prod.mk.inj heq
    exact exists_places_of_readLetters hread hds
  · rintro ⟨ps, rfl, rfl⟩
    simp only [readString, readLetters_places, Option.map_some, pairHalves_places]

end Json

namespace Query
open Text Json

namespace Lexeme

theorem unquote_hexUnit (u : HexUnit) (cs : List Char) :
    unquote (u.text ++ cs) = consChar (unitChar u.value) (unquote cs) :=
  unquote_unit u.spelled cs

theorem unitChar_of_isSurrogate {n : Nat} (h : isSurrogate n = true) : unitChar n = 'u' :=
  if_pos h

theorem unquote_place (p : Place) (cs : List Char) :
    unquote (p.text ++ cs) = (p.asRead ++ (unquote cs).1, (unquote cs).2) := by
  cases p with
  | plain c _ unmarked => exact unquote_cons cs unmarked.1 unmarked.2
  | short e c known =>
    obtain ⟨he, rfl⟩ := unescape_of_unescape? known
    exact unquote_escaped he cs
  | unit u whole =>
    have hchar : unitChar u.value = Char.ofNat u.value := if_neg (by simp [whole])
    rw [Place.text, unquote_hexUnit, hchar]
    rfl
  | pair high low opens closes =>
    have hhigh := unitChar_of_isSurrogate (n := high.value) (by simp [isSurrogate, opens])
    have hlow := unitChar_of_isSurrogate (n := low.value) (by simp [isSurrogate, closes])
    rw [Place.text, List.append_assoc, unquote_hexUnit, unquote_hexUnit, hhigh, hlow]
    rfl

/-- Every place is read by itself, up to the closing quote. -/
theorem unquote_places (ps : List Place) (rest : List Char) :
    unquote (ps.flatMap Place.text ++ '"' :: rest) = (ps.flatMap Place.asRead, rest) := by
  induction ps with
  | nil => exact unquote_closing rest
  | cons p ps ih => rw [List.flatMap_cons, List.append_assoc, unquote_place, ih, List.flatMap_cons]

end Lexeme

theorem tokenize_literal (ps : List Place) (rest : List Char) :
    tokenize (literal ps ++ rest) =
      ⟨.quoted, String.ofList (ps.flatMap Place.asRead)⟩ :: tokenize rest := by
  have hsplit : literal ps ++ rest = '"' :: (ps.flatMap Place.text ++ '"' :: rest) := by
    simp [literal]
  rw [hsplit, tokenize_quotation, Lexeme.unquote_places]

theorem length_flatMap_asRead (ps : List Place) :
    (ps.flatMap Place.asRead).length = ps.length + ps.countP Place.isPair := by
  induction ps with
  | nil => rfl
  | cons p ps ih =>
    have hp : p.asRead.length = 1 + if p.isPair then 1 else 0 := by
      unfold Place.asRead
      split <;> rfl
    rw [List.flatMap_cons, List.length_append, hp, ih, List.length_cons, List.countP_cons]
    omega

/-- What is read is what is denoted where there are no pairs; each pair makes it longer. -/
theorem flatMap_asRead_eq_iff (ps : List Place) :
    ps.flatMap Place.asRead = ps.map Place.char ↔ ∀ p ∈ ps, p.isPair = false := by
  constructor
  · intro h
    have hlength := congrArg List.length h
    rw [length_flatMap_asRead, List.length_map] at hlength
    have hcount : ps.countP Place.isPair = 0 := by omega
    simpa using List.countP_eq_zero.1 hcount
  · intro h
    rw [List.map_eq_flatMap]
    exact List.flatMap_congr fun p hp => if_neg (by simp [h p hp])

/-- A string literal, which a JSON reader reads as the text that it denotes, is read in a query as
one quotation, whatever follows it. It is read there as the same text exactly if no character in it
is escaped as a pair. -/
theorem tokenize_literal_iff (ps : List Place) (rest : List Char) :
    readString (ps.flatMap Place.text ++ '"' :: rest) =
      some ((ps.map Place.char).map Letter.char, rest) ∧
    tokenize (literal ps ++ rest) =
      ⟨.quoted, String.ofList (ps.flatMap Place.asRead)⟩ :: tokenize rest ∧
    (tokenize (literal ps ++ rest) =
        ⟨.quoted, String.ofList (ps.map Place.char)⟩ :: tokenize rest ↔
      ∀ p ∈ ps, p.isPair = false) := by
  have hread := tokenize_literal ps rest
  refine ⟨readString_eq_some_iff.2 ⟨ps, rfl, rfl⟩, hread, ?_⟩
  rw [hread, ← flatMap_asRead_eq_iff, List.cons.injEq, Token.mk.injEq, String.ofList_inj]
  simp only [and_true, true_and]

/-- A face, escaped as JSON escapes it. -/
example : tokenize "\"\\ud83d\\ude00\"".toList = [⟨.quoted, "uu"⟩] := by decide +kernel

end Query

end BoolQuery
