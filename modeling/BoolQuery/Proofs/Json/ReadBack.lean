import BoolQuery.Json.Writer
import BoolQuery.Proofs.Json.NumberText
import BoolQuery.Proofs.Query.Lexing

/-! The text of a document is read as that document, with its numbers spelled by other decimals
where they are written so. The document has to be of whole characters, and none of its numbers may
be written with zeros in front. -/

namespace BoolQuery.Json
open Text Numeric

theorem readLetters_cons {c : Char} (cs : List Char) (hq : c ≠ '"') (hb : c ≠ '\\')
    (hc : ¬ c.toNat < 0x20) : readLetters (c :: cs) = consLetter (.char c) (readLetters cs) := by
  rw [readLetters.eq_def]
  simp [hq, hb, hc]

theorem readLetters_escaped {e d : Char} (he : e ≠ 'u') (hd : unescape? e = some d)
    (cs : List Char) : readLetters ('\\' :: e :: cs) = consLetter (.char d) (readLetters cs) := by
  rw [readLetters.eq_def]
  simp [he, hd]

theorem letterOfUnit_toNat {c : Char} (h : c.toNat < 32) : letterOfUnit c.toNat = .char c := by
  have hs : isSurrogate c.toNat = false := isSurrogate_of_lt (Nat.lt_trans h (by decide))
  simp [letterOfUnit, hs, Char.ofNat_toNat]

theorem readLetters_escape (c : Char) (cs : List Char) :
    readLetters (escape c ++ cs) = consLetter (.char c) (readLetters cs) := by
  unfold escape
  split
  case h_8 hq hb _ _ _ _ _ =>
    split
    next hlt =>
      rw [readLetters.eq_def]
      simp [hexUnit?_hexDigit hlt, letterOfUnit_toNat hlt]
    next hge => exact readLetters_cons cs hq hb hge
  all_goals exact readLetters_escaped (by decide) rfl cs

theorem readLetters_quote (cs rest : List Char) :
    readLetters (cs.flatMap escape ++ '"' :: rest) = some (cs.map Letter.char, rest) := by
  induction cs with
  | nil =>
    rw [List.flatMap_nil, List.nil_append, readLetters.eq_def]
    rfl
  | cons c cs ih =>
    rw [List.flatMap_cons, List.append_assoc, readLetters_escape, ih]
    rfl

/-- Only halves are paired. -/
theorem pairHalves_map_char (cs : List Char) :
    pairHalves (cs.map Letter.char) = cs.map Letter.char := by
  induction cs with
  | nil => rfl
  | cons c cs ih => rw [List.map_cons, pairHalves, ih]

theorem flatMap_escapeLetter (cs : List Char) :
    (cs.map Letter.char).flatMap escapeLetter = cs.flatMap escape := by
  rw [List.flatMap_map]
  rfl

theorem readString_quote (cs rest : List Char) :
    readString ((cs.map Letter.char).flatMap escapeLetter ++ '"' :: rest) =
      some (cs.map Letter.char, rest) := by
  rw [readString, flatMap_escapeLetter, readLetters_quote]
  simp only [Option.map_some, pairHalves_map_char]

mutual

/-- A document that can be read back: its strings are of whole characters, and its numbers are
finite and written without zeros in front. -/
def Readable : Json → Prop
  | number _ d => IsPlain d ∧ Double.rankOfDecimal d < Double.infiniteRank
  | string ls => ∃ cs : List Char, ls = cs.map Letter.char
  | array items => AllReadable items
  | object members => MembersReadable members
  | _ => True

def AllReadable : List Json → Prop
  | [] => True
  | j :: js => j.Readable ∧ AllReadable js

def MembersReadable : List (Letters × Json) → Prop
  | [] => True
  | (key, j) :: members =>
    (∃ cs : List Char, key = cs.map Letter.char) ∧ j.Readable ∧ MembersReadable members

end

mutual

/-- The document that is read from the text of this one. -/
def reread : Json → Json
  | number negative d => number negative d.reread
  | array items => array (rereadAll items)
  | object members => object (rereadMembers members)
  | j => j

def rereadAll : List Json → List Json
  | [] => []
  | j :: js => j.reread :: rereadAll js

def rereadMembers : List (Letters × Json) → List (Letters × Json)
  | [] => []
  | (key, j) :: members => (key, j.reread) :: rereadMembers members

end

theorem skipSpace_cons {c : Char} (h : isSpace c = false) (cs : List Char) :
    skipSpace (c :: cs) = c :: cs := by
  simp [skipSpace, h]

/-- What begins neither a string nor an array nor an object is a number or a name. -/
theorem readValue_of_head {c : Char} (hspace : isSpace c = false) (hquote : c ≠ '"')
    (hbracket : c ≠ '[') (hbrace : c ≠ '\x7b') (steps : Nat) (cs : List Char) :
    readValue (steps + 1) (c :: cs) = (readNumber (c :: cs)).or (readName (c :: cs)) := by
  rw [readValue, skipSpace_cons hspace]
  split
  next heq => exact absurd (List.cons.inj heq).1 hquote
  next heq => exact absurd (List.cons.inj heq).1 hbracket
  next heq => exact absurd (List.cons.inj heq).1 hbrace
  next => rfl

theorem isDigit_ne {c : Char} (h : c.isDigit = true) :
    isSpace c = false ∧ c ≠ '"' ∧ c ≠ '[' ∧ c ≠ '\x7b' ∧ c ≠ ']' ∧ c ≠ '-' := by
  refine ⟨?_, ?_, ?_, ?_, ?_, ?_⟩
  · simp only [isSpace, Bool.or_eq_false_iff, beq_eq_false_iff_ne]
    refine ⟨⟨⟨?_, ?_⟩, ?_⟩, ?_⟩ <;> rintro rfl <;> exact absurd h (by decide)
  all_goals rintro rfl; exact absurd h (by decide)

variable {rest : List Char}

theorem readNumber_text (negative : Bool) {d : Decimal} (hd : IsPlain d) (hrest : Closes rest) :
    readNumber (signText negative ++ d.fractional ++ rest) =
      some (number negative d.reread, rest) := by
  have hread := Decimal.readUnsigned_fractional hd hrest
  cases negative with
  | true => simp [signText, readNumber, hread]
  | false =>
    obtain ⟨c, cs, htext, hc⟩ := Decimal.exists_fractional_eq hd
    have hminus := (isDigit_ne hc).2.2.2.2.2
    rw [htext, List.cons_append] at hread
    simp only [signText, Bool.false_eq_true, if_false, List.nil_append, htext, List.cons_append]
    unfold readNumber
    split
    next heq => exact absurd (List.cons.inj heq).1 hminus
    next => rw [hread, Option.map_some]

theorem readValue_number (negative : Bool) {d : Decimal} (hd : IsPlain d) (hrest : Closes rest)
    (steps : Nat) :
    readValue (steps + 1) ((number negative d).text ++ rest) =
      some ((number negative d).reread, rest) := by
  have hread := readNumber_text negative hd hrest
  obtain ⟨c, cs, htext, hspace, hquote, hbracket, hbrace⟩ : ∃ c cs,
      signText negative ++ d.fractional = c :: cs ∧ isSpace c = false ∧ c ≠ '"' ∧ c ≠ '[' ∧
        c ≠ '\x7b' := by
    cases negative with
    | true => exact ⟨'-', d.fractional, rfl, by decide, by decide, by decide, by decide⟩
    | false =>
      obtain ⟨c, cs, htext, hc⟩ := Decimal.exists_fractional_eq hd
      obtain ⟨hspace, hquote, hbracket, hbrace, _⟩ := isDigit_ne hc
      exact ⟨c, cs, htext, hspace, hquote, hbracket, hbrace⟩
  rw [text, reread]
  rw [htext, List.cons_append] at hread ⊢
  rw [readValue_of_head hspace hquote hbracket hbrace, hread, Option.some_or]

theorem readValue_null (steps : Nat) :
    readValue (steps + 1) (null.text ++ rest) = some (null, rest) :=
  readValue_of_head (by decide) (by decide) (by decide) (by decide) steps
    ('u' :: 'l' :: 'l' :: rest)

theorem readValue_bool (b : Bool) (steps : Nat) :
    readValue (steps + 1) ((bool b).text ++ rest) = some (bool b, rest) := by
  cases b with
  | true =>
    exact readValue_of_head (by decide) (by decide) (by decide) (by decide) steps
      ('r' :: 'u' :: 'e' :: rest)
  | false =>
    exact readValue_of_head (by decide) (by decide) (by decide) (by decide) steps
      ('a' :: 'l' :: 's' :: 'e' :: rest)

theorem readValue_string (cs : List Char) (steps : Nat) :
    readValue (steps + 1) ((string (cs.map Letter.char)).text ++ rest) =
      some (string (cs.map Letter.char), rest) := by
  have hread := readString_quote cs rest
  rw [text, quoteLetters, List.cons_append, List.append_assoc, List.singleton_append, readValue,
    skipSpace_cons (by decide)]
  simp only [hread, Option.map_some]

/-- No document begins with a blank or with a closing bracket. -/
theorem exists_text_eq {j : Json} (hj : j.Readable) :
    ∃ c cs, j.text = c :: cs ∧ isSpace c = false ∧ c ≠ ']' := by
  cases j with
  | null => exact ⟨'n', _, rfl, by decide, by decide⟩
  | bool b => cases b <;> exact ⟨_, _, rfl, by decide, by decide⟩
  | number negative d =>
    cases negative with
    | true => exact ⟨'-', _, rfl, by decide, by decide⟩
    | false =>
      obtain ⟨c, cs, htext, hc⟩ := Decimal.exists_fractional_eq hj.1
      obtain ⟨hspace, _, _, _, hclosing, _⟩ := isDigit_ne hc
      exact ⟨c, cs, htext, hspace, hclosing⟩
  | string ls => exact ⟨'"', _, rfl, by decide, by decide⟩
  | array items => exact ⟨'[', _, rfl, by decide, by decide⟩
  | object members => exact ⟨'\x7b', _, rfl, by decide, by decide⟩

/-- The items of an array with commas between them. -/
def itemsText (items : List Json) : List Char := [','].intercalate (texts items)

def membersText (members : List (Letters × Json)) : List Char :=
  [','].intercalate (memberTexts members)

theorem itemsText_cons_cons (j k : Json) (js : List Json) :
    itemsText (j :: k :: js) = j.text ++ ',' :: itemsText (k :: js) := by
  simp [itemsText, texts, List.intercalate_cons_cons]

theorem itemsText_singleton (j : Json) : itemsText [j] = j.text := by
  simp [itemsText, texts]

/-- The text of a member before the ones that follow. -/
def memberText (m : Letters × Json) : List Char := quoteLetters m.1 ++ ':' :: m.2.text

theorem membersText_cons_cons (m k : Letters × Json) (ms : List (Letters × Json)) :
    membersText (m :: k :: ms) = memberText m ++ ',' :: membersText (k :: ms) := by
  simp [membersText, memberText, memberTexts, List.intercalate_cons_cons]

theorem length_memberText (key : Letters) (j : Json) :
    j.text.length < (memberText (key, j)).length := by
  simp only [memberText, quoteLetters, List.length_append, List.length_cons]
  omega

theorem membersText_singleton (m : Letters × Json) : membersText [m] = memberText m := by
  simp [membersText, memberText, memberTexts]

/-- The text of an array of items, or of an object of members, has a place for them. -/
theorem exists_itemsText_eq {j : Json} (hj : j.Readable) (js : List Json) :
    ∃ c cs, itemsText (j :: js) = c :: cs ∧ isSpace c = false ∧ c ≠ ']' := by
  obtain ⟨c, cs, htext, hspace, hclosing⟩ := exists_text_eq hj
  cases js with
  | nil => exact ⟨c, cs, by rw [itemsText_singleton, htext], hspace, hclosing⟩
  | cons k js =>
    rw [itemsText_cons_cons, htext]
    exact ⟨c, _, rfl, hspace, hclosing⟩

theorem exists_membersText_eq (m : Letters × Json) (ms : List (Letters × Json)) :
    ∃ cs, membersText (m :: ms) = '"' :: cs := by
  cases ms with
  | nil => exact ⟨_, by rw [membersText_singleton]; rfl⟩
  | cons k ms => exact ⟨_, by rw [membersText_cons_cons]; rfl⟩

theorem closes_comma (rest : List Char) : Closes (',' :: rest) := by simp [Closes]

theorem closes_bracket (rest : List Char) : Closes (']' :: rest) := by simp [Closes]

theorem closes_brace (rest : List Char) : Closes ('\x7d' :: rest) := by simp [Closes]

theorem readValue_array {js : List Json} {c : Char} {cs : List Char}
    (htext : itemsText js = c :: cs) (hspace : isSpace c = false) (hclosing : c ≠ ']')
    {steps : Nat} (hitems : readItems steps (itemsText js ++ ']' :: rest) =
      some (rereadAll js, rest)) :
    readValue (steps + 1) ((array js).text ++ rest) = some ((array js).reread, rest) := by
  have harray : (array js).text ++ rest = '[' :: (itemsText js ++ ']' :: rest) := by
    simp [text, itemsText]
  rw [harray, readValue, skipSpace_cons (by decide)]
  simp only
  split
  next heq =>
    rw [htext, List.cons_append, skipSpace_cons hspace] at heq
    exact absurd (List.cons.inj heq).1 hclosing
  next =>
    rw [hitems]
    rfl

theorem readValue_object {ms : List (Letters × Json)} {cs : List Char}
    (htext : membersText ms = '"' :: cs) {steps : Nat}
    (hmembers : readMembers steps (membersText ms ++ '\x7d' :: rest) =
      some (rereadMembers ms, rest)) :
    readValue (steps + 1) ((object ms).text ++ rest) = some ((object ms).reread, rest) := by
  have hobject : (object ms).text ++ rest = '\x7b' :: (membersText ms ++ '\x7d' :: rest) := by
    simp [text, membersText]
  rw [hobject, readValue, skipSpace_cons (by decide)]
  simp only
  split
  next heq =>
    rw [htext, List.cons_append, skipSpace_cons (by decide)] at heq
    exact absurd (List.cons.inj heq).1 (by decide)
  next =>
    rw [hmembers]
    rfl

theorem memberText_append (cs : List Char) (j : Json) (after : List Char) :
    memberText (cs.map Letter.char, j) ++ after =
      '"' :: ((cs.map Letter.char).flatMap escapeLetter ++ '"' :: ':' :: (j.text ++ after)) := by
  simp [memberText, quoteLetters]

/-- The last member of an object is read with the brace behind it. -/
theorem readMembers_last {cs : List Char} {j : Json} {steps : Nat}
    (hread : readValue steps (j.text ++ '\x7d' :: rest) = some (j.reread, '\x7d' :: rest)) :
    readMembers (steps + 1) (memberText (cs.map Letter.char, j) ++ '\x7d' :: rest) =
      some ([(cs.map Letter.char, j.reread)], rest) := by
  rw [memberText_append, readMembers, skipSpace_cons (by decide)]
  simp only [readString_quote, Option.bind_eq_bind, Option.bind_some, hread,
    skipSpace_cons (show isSpace ':' = false by decide),
    skipSpace_cons (show isSpace '\x7d' = false by decide)]

theorem readMembers_more {cs : List Char} {j : Json} {steps : Nat} {after : List Char}
    {ms : List (Letters × Json)}
    (hread : readValue steps (j.text ++ ',' :: after) = some (j.reread, ',' :: after))
    (hmembers : readMembers steps after = some (ms, rest)) :
    readMembers (steps + 1) (memberText (cs.map Letter.char, j) ++ ',' :: after) =
      some ((cs.map Letter.char, j.reread) :: ms, rest) := by
  rw [memberText_append, readMembers, skipSpace_cons (by decide)]
  simp only [readString_quote, Option.bind_eq_bind, Option.bind_some, hread,
    skipSpace_cons (show isSpace ':' = false by decide),
    skipSpace_cons (show isSpace ',' = false by decide), hmembers, Option.map_some]

mutual

/-- A document is read from its text, in two steps for each character. -/
theorem readValue_text : (j : Json) → j.Readable → (steps : Nat) → (rest : List Char) →
    Closes rest → 2 * j.text.length ≤ steps + 1 →
    readValue steps (j.text ++ rest) = some (j.reread, rest)
  | j, hj, 0 => fun _ _ hsteps => by
    obtain ⟨c, cs, htext, _⟩ := exists_text_eq hj
    rw [htext, List.length_cons] at hsteps
    omega
  | .null, _, steps + 1 => fun _ _ _ => readValue_null steps
  | .bool b, _, steps + 1 => fun _ _ _ => readValue_bool b steps
  | .number negative d, hj, steps + 1 => fun _ hrest _ => readValue_number negative hj.1 hrest steps
  | .string ls, hj, steps + 1 => fun _ _ _ => by
    obtain ⟨cs, rfl⟩ := hj
    exact readValue_string cs steps
  | .array [], _, steps + 1 => fun _ _ _ => rfl
  | .array (j :: js), hj, steps + 1 => fun rest _ hsteps => by
    obtain ⟨c, cs, htext, hspace, hclosing⟩ := exists_itemsText_eq hj.1 js
    refine readValue_array htext hspace hclosing (readItems_text j js hj steps rest ?_)
    simp only [text, List.length_cons, List.length_append] at hsteps
    unfold itemsText
    omega
  | .object [], _, steps + 1 => fun _ _ _ => rfl
  | .object ((key, j) :: ms), hj, steps + 1 => fun rest _ hsteps => by
    obtain ⟨cs, htext⟩ := exists_membersText_eq (key, j) ms
    refine readValue_object htext (readMembers_text key j ms hj steps rest ?_)
    simp only [text, List.length_cons, List.length_append] at hsteps
    unfold membersText
    omega

theorem readItems_text : (j : Json) → (js : List Json) → AllReadable (j :: js) →
    (steps : Nat) → (rest : List Char) → 2 * (itemsText (j :: js)).length ≤ steps →
    readItems steps (itemsText (j :: js) ++ ']' :: rest) = some (rereadAll (j :: js), rest)
  | j, js, hj, 0 => fun _ hsteps => by
    obtain ⟨c, cs, htext, _⟩ := exists_itemsText_eq hj.1 js
    rw [htext, List.length_cons] at hsteps
    omega
  | j, [], hj, steps + 1 => fun rest hsteps => by
    rw [itemsText_singleton] at hsteps ⊢
    have hread := readValue_text j hj.1 steps _ (closes_bracket rest) hsteps
    simp only [readItems, hread, Option.bind_eq_bind, Option.bind_some,
      skipSpace_cons (show isSpace ']' = false by decide), rereadAll]
  | j, k :: js, hj, steps + 1 => fun rest hsteps => by
    rw [itemsText_cons_cons, List.length_append, List.length_cons] at hsteps
    have hread := readValue_text j hj.1 steps _ (closes_comma (itemsText (k :: js) ++ ']' :: rest))
      (by omega)
    have hitems := readItems_text k js hj.2 steps rest (by omega)
    rw [itemsText_cons_cons, List.append_assoc, List.cons_append]
    simp only [readItems, hread, Option.bind_eq_bind, Option.bind_some,
      skipSpace_cons (show isSpace ',' = false by decide), hitems, Option.map_some, rereadAll]

theorem readMembers_text : (key : Letters) → (j : Json) → (ms : List (Letters × Json)) →
    MembersReadable ((key, j) :: ms) → (steps : Nat) → (rest : List Char) →
    2 * (membersText ((key, j) :: ms)).length ≤ steps →
    readMembers steps (membersText ((key, j) :: ms) ++ '\x7d' :: rest) =
      some (rereadMembers ((key, j) :: ms), rest)
  | key, j, ms, hj, 0 => fun _ hsteps => by
    obtain ⟨cs, htext⟩ := exists_membersText_eq (key, j) ms
    rw [htext, List.length_cons] at hsteps
    omega
  | key, j, [], hj, steps + 1 => fun rest hsteps => by
    obtain ⟨⟨cs, rfl⟩, hj, _⟩ := hj
    rw [membersText_singleton] at hsteps ⊢
    have hlen := length_memberText (cs.map Letter.char) j
    have hread := readValue_text j hj steps _ (closes_brace rest) (by omega)
    exact readMembers_last hread
  | key, j, (key', k) :: ms, hj, steps + 1 => fun rest hsteps => by
    obtain ⟨⟨cs, rfl⟩, hj, hms⟩ := hj
    rw [membersText_cons_cons, List.length_append, List.length_cons] at hsteps
    have hlen := length_memberText (cs.map Letter.char) j
    have hread := readValue_text j hj steps _
      (closes_comma (membersText ((key', k) :: ms) ++ '\x7d' :: rest)) (by omega)
    have hmembers := readMembers_text key' k ms hms steps rest (by omega)
    rw [membersText_cons_cons, List.append_assoc, List.cons_append]
    exact readMembers_more hread hmembers

end

theorem read?_text {j : Json} (hj : j.Readable) : read? j.text = some j.reread := by
  have hread := readValue_text j hj (2 * j.text.length + 1) [] closes_nil (by omega)
  rw [List.append_nil] at hread
  rw [read?, hread]
  rfl

end BoolQuery.Json
