import BoolQuery.Query.Token
import BoolQuery.Text.Blank
import BoolQuery.Text.Hex

/-! Splitting the text of a query into tokens. Every kind of token has a reader that takes
one token off the start of a text; the first reader that succeeds wins. Any text can be
split: an open quotation runs to the end of the text. -/

namespace BoolQuery.Query
open Text

/-- The characters, besides blanks, that end a word. -/
def wordEnders : List Char := ['(', ')', '!', '&', '|', '=', '<', '>', ',']

def isReserved (c : Char) : Bool := isBlank c || wordEnders.contains c

/-- The characters, besides blanks, that may follow a negated keyword. -/
def keywordEnders : List Char := ['(', ')', '!', '&', '|', '=', '<', '>', '"']

/-- Whether a negated keyword may end before this text. -/
def endsKeyword : List Char → Bool
  | [] => true
  | c :: _ => isBlank c || keywordEnders.contains c

/-- A token and the text that follows it. -/
abbrev Lexeme := Token × List Char

namespace Lexeme

def operator (sign : List Char) (rest : List Char) : Lexeme :=
  (⟨.operator, String.ofList sign⟩, rest)

/-- `!=`, or one of `=`, `<`, `>` with an optional `=`. -/
def comparison? : List Char → Option Lexeme
  | [] => none
  | c :: cs =>
    match cs with
    | '=' :: rest =>
      if ['!', '=', '<', '>'].contains c then some (operator [c, '='] rest) else none
    | _ => if ['=', '<', '>'].contains c then some (operator [c] cs) else none

def negatedKeywords : List (List Char) := ["CONTAINS".toList, "LIKE".toList]

/-- `!CONTAINS` or `!LIKE` in any letter case, if the word ends there. -/
def negatedKeyword? : List Char → Option Lexeme
  | '!' :: cs =>
    let word := (cs.takeWhile Char.isAlpha).map Char.toUpper
    let rest := cs.dropWhile Char.isAlpha
    if negatedKeywords.contains word && endsKeyword rest then some (operator ('!' :: word) rest)
    else none
  | _ => none

def symbols : List Char := ['(', ')', '!', '&', '|', ',']

def symbol? : List Char → Option Lexeme
  | [] => none
  | c :: cs => if symbols.contains c then some (⟨.symbol, String.ofList [c]⟩, cs) else none

/-- The character that an escape of two characters stands for. -/
def unescape (c : Char) : Char :=
  match c with
  | 'n' => '\n'
  | 't' => '\t'
  | 'r' => '\r'
  | 'b' => '\x08'
  | 'f' => '\x0c'
  | _ => c

/-- The character of a code unit; half of a pair is no character and becomes a `u`. -/
def unitChar (n : Nat) : Char := if isSurrogate n then 'u' else Char.ofNat n

/-- A character in front of what was read after it. -/
def consChar (c : Char) (read : List Char × List Char) : List Char × List Char :=
  (c :: read.1, read.2)

/-- The text inside a quotation whose opening quote is gone, and what follows the closing
one. An escape `\u` without four digits is the letter. -/
def unquote : List Char → List Char × List Char
  | [] => ([], [])
  | c :: cs =>
    if c == '"' then ([], cs)
    else if c == '\\' then
      match cs with
      | [] => ([], [])
      | e :: rest =>
        if e == 'u' then
          match rest with
          | h₁ :: h₂ :: h₃ :: h₄ :: after =>
            match hexUnit? h₁ h₂ h₃ h₄ with
            | some n => consChar (unitChar n) (unquote after)
            | none => consChar 'u' (unquote (h₁ :: h₂ :: h₃ :: h₄ :: after))
          | short => consChar 'u' (unquote short)
        else consChar (unescape e) (unquote rest)
    else consChar c (unquote cs)

def quoted? : List Char → Option Lexeme
  | '"' :: cs =>
    let (inside, rest) := unquote cs
    some (⟨.quoted, String.ofList inside⟩, rest)
  | _ => none

def word? (cs : List Char) : Option Lexeme :=
  let word := cs.takeWhile fun c => !isReserved c
  if word.isEmpty then none
  else some (⟨.word, String.ofList word⟩, cs.dropWhile fun c => !isReserved c)

/-- The token at the start of a text without leading blanks. -/
def read? (cs : List Char) : Option Lexeme :=
  (comparison? cs).or <| (negatedKeyword? cs).or <| (symbol? cs).or <|
    (quoted? cs).or (word? cs)

theorem unquote_suffix : (cs : List Char) → (unquote cs).2 <:+ cs
  | [] => List.suffix_rfl
  | c :: cs => by
    unfold unquote
    split
    · exact ⟨[c], rfl⟩
    split
    · split
      · exact ⟨[c], rfl⟩
      rename_i e rest
      split
      · split
        · rename_i h₁ h₂ h₃ h₄ after
          split
          · exact (unquote_suffix after).trans ⟨[c, e, h₁, h₂, h₃, h₄], rfl⟩
          · exact (unquote_suffix (h₁ :: h₂ :: h₃ :: h₄ :: after)).trans ⟨[c, e], rfl⟩
        · exact (unquote_suffix rest).trans ⟨[c, e], rfl⟩
      · exact (unquote_suffix rest).trans ⟨[c, e], rfl⟩
    · exact (unquote_suffix cs).trans ⟨[c], rfl⟩
termination_by cs => cs.length

theorem length_lt_of_comparison? {cs : List Char} {x : Lexeme} (h : comparison? cs = some x) :
    x.2.length < cs.length := by
  cases cs with
  | nil => simp [comparison?] at h
  | cons c cs =>
    simp only [comparison?] at h
    split at h <;> split at h <;> cases h
    · exact Nat.lt_succ_of_lt (Nat.lt_succ_self _)
    · exact Nat.lt_succ_self _

theorem length_lt_of_negatedKeyword? {cs : List Char} {x : Lexeme}
    (h : negatedKeyword? cs = some x) : x.2.length < cs.length := by
  unfold negatedKeyword? at h
  split at h
  · rename_i cs
    have hle := (List.dropWhile_suffix (l := cs) Char.isAlpha).length_le
    simp only at h
    split at h <;> cases h
    simp only [operator, List.length_cons]
    omega
  · cases h

theorem length_lt_of_symbol? {cs : List Char} {x : Lexeme} (h : symbol? cs = some x) :
    x.2.length < cs.length := by
  cases cs with
  | nil => simp [symbol?] at h
  | cons c cs =>
    simp only [symbol?] at h
    split at h <;> cases h
    simp

theorem length_lt_of_quoted? {cs : List Char} {x : Lexeme} (h : quoted? cs = some x) :
    x.2.length < cs.length := by
  unfold quoted? at h
  split at h <;> cases h
  exact Nat.lt_succ_of_le (unquote_suffix _).length_le

theorem length_lt_of_word? {cs : List Char} {x : Lexeme} (h : word? cs = some x) :
    x.2.length < cs.length := by
  simp only [word?] at h
  split at h
  · cases h
  · rename_i hw
    cases h
    have hsum := congrArg List.length
      (List.takeWhile_append_dropWhile (p := fun c => !isReserved c) (l := cs))
    rw [List.length_append] at hsum
    have hpos := List.length_pos_iff.2 (mt List.isEmpty_iff.2 hw)
    simp only
    omega

/-- Every token takes at least one character, so splitting a text ends. -/
theorem length_lt_of_read? {cs : List Char} {x : Lexeme} (h : read? cs = some x) :
    x.2.length < cs.length := by
  simp only [read?, Option.or_eq_some_iff] at h
  rcases h with h | ⟨_, h | ⟨_, h | ⟨_, h | ⟨_, h⟩⟩⟩⟩
  · exact length_lt_of_comparison? h
  · exact length_lt_of_negatedKeyword? h
  · exact length_lt_of_symbol? h
  · exact length_lt_of_quoted? h
  · exact length_lt_of_word? h

end Lexeme

/-- The tokens of a text. A character that starts no token would be a word of its own. -/
def tokenize : List Char → List Token
  | [] => []
  | c :: cs =>
    if isBlank c then tokenize cs
    else
      match _h : Lexeme.read? (c :: cs) with
      | some x => x.1 :: tokenize x.2
      | none => ⟨.word, String.ofList [c]⟩ :: tokenize cs
termination_by cs => cs.length
decreasing_by
  · exact Nat.lt_succ_self _
  · exact Lexeme.length_lt_of_read? _h
  · exact Nat.lt_succ_self _

end BoolQuery.Query
