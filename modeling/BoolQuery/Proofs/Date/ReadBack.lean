import BoolQuery.Date.Reader
import BoolQuery.Proofs.Text.Letters
import Mathlib.Algebra.Group.Nat.Defs

/-! A written date is read as itself. Its numbers are filled to a fixed width, so a reader
that counts digits finds where each of them ends. -/

namespace BoolQuery

namespace Text

variable {width n : Nat}

theorem isDigit_of_mem_padded {c : Char} (h : c ∈ padded width n) : c.isDigit = true := by
  obtain h | h := List.mem_append.1 h
  · rw [List.eq_of_mem_replicate h]
    decide
  · exact Nat.isDigit_of_mem_toDigits (by decide) (by decide) h

theorem padded_ne_nil (width n : Nat) : padded width n ≠ [] := by
  simp [padded, digits, Nat.toDigits_ne_nil]

theorem length_padded (hw : 0 < width) (h : n < 10 ^ width) : (padded width n).length = width := by
  have := (Nat.length_toDigits_le_iff (b := 10) (by decide) hw).2 h
  simp only [padded, digits, List.length_append, List.length_replicate]
  omega

theorem ofDigits_padded (width n : Nat) : ofDigits (padded width n) = n := by
  have : ofDigits (padded width n) = ofDigits (digits n) := by
    simp [padded, ofDigits, Nat.ofDigitChars_append, Nat.ofDigitChars_replicate_zero]
  rw [this, ofDigits_digits]

end Text

namespace Date
open Text

theorem readUpTo?_append {limit : Nat} {ds rest : List Char} (hne : ds ≠ [])
    (hlength : ds.length ≤ limit) (hds : ∀ c ∈ ds, c.isDigit = true)
    (hrest : ∀ c ∈ rest.head?, c.isDigit = false) :
    readUpTo? limit (ds ++ rest) = some (ofDigits ds, rest) := by
  have htake : ((ds ++ rest).take limit).takeWhile Char.isDigit = ds := by
    rw [List.take_append, List.take_of_length_le hlength, List.takeWhile_append_of_pos hds]
    cases rest with
    | nil => simp
    | cons c rest =>
      have hc : c.isDigit = false := hrest c rfl
      cases limit - ds.length <;> simp [hc]
  simp only [readUpTo?, htake]
  simp [hne]

theorem readUpTo?_padded {width n limit : Nat} {rest : List Char}
    (hlength : (padded width n).length ≤ limit) (hrest : ∀ c ∈ rest.head?, c.isDigit = false) :
    readUpTo? limit (padded width n ++ rest) = some (n, rest) := by
  rw [readUpTo?_append (padded_ne_nil width n) hlength (fun c => isDigit_of_mem_padded) hrest,
    ofDigits_padded]

theorem trimStart_padded (width n : Nat) (rest : List Char) :
    trimStart (padded width n ++ rest) = padded width n ++ rest := by
  obtain ⟨c, cs, hcons⟩ := List.exists_cons_of_ne_nil (padded_ne_nil width n)
  have hmem : c ∈ padded width n := by simp [hcons]
  have hc : c.isDigit = true := isDigit_of_mem_padded hmem
  rw [hcons]
  exact trimStart_of_not_isBlank (isBlank_of_isDigit hc) _

theorem readYear?_yearText (year : Int) (rest : List Char) :
    readYear? (yearText year ++ '-' :: rest) = some (year, '-' :: rest) := by
  have hdash : ∀ c ∈ ('-' :: rest).head?, c.isDigit = false := by simp
  unfold yearText
  split
  · rename_i h
    simp only [Bool.and_eq_true, decide_eq_true_eq] at h
    obtain ⟨c, cs, hcons⟩ := List.exists_cons_of_ne_nil (padded_ne_nil 4 year.natAbs)
    have hmem : c ∈ padded 4 year.natAbs := by simp [hcons]
    have hc : c.isDigit = true := isDigit_of_mem_padded hmem
    have hlength : (padded 4 year.natAbs).length ≤ 4 :=
      Nat.le_of_eq (length_padded (by decide) (by omega))
    have hread := readUpTo?_padded hlength hdash
    have hyear : (year.natAbs : Int) = year := by omega
    rw [hcons] at hread ⊢
    unfold readYear?
    split
    · rename_i heq
      obtain ⟨rfl, _⟩ := List.cons.inj heq
      simp at hc
    · rename_i heq
      obtain ⟨rfl, _⟩ := List.cons.inj heq
      simp at hc
    · simp only [hread, Option.map_some, hyear]
  · have hread : readUpTo? (padded 4 year.natAbs ++ '-' :: rest).length
        (padded 4 year.natAbs ++ '-' :: rest) = some (year.natAbs, '-' :: rest) :=
      readUpTo?_padded (by simp) hdash
    by_cases hneg : year < 0
    · have hyear : -(year.natAbs : Int) = year := by omega
      simp only [if_pos hneg, List.cons_append, readYear?, hread, Option.map_some, hyear]
    · have hyear : (year.natAbs : Int) = year := by omega
      simp only [if_neg hneg, List.cons_append, readYear?, hread, Option.map_some, hyear]

theorem yearText_chars (year : Int) :
    yearText year ≠ [] ∧ ∀ c ∈ yearText year, c.isDigit = true ∨ c = '-' ∨ c = '+' := by
  unfold yearText
  split
  · exact ⟨padded_ne_nil _ _, fun c hc => .inl (isDigit_of_mem_padded hc)⟩
  · refine ⟨by simp, ?_⟩
    intro c hc
    obtain rfl | hc := List.mem_cons.1 hc
    · split
      · exact .inr (.inl rfl)
      · exact .inr (.inr rfl)
    · exact .inl (isDigit_of_mem_padded hc)

theorem trimStart_yearText (year : Int) (rest : List Char) :
    trimStart (yearText year ++ rest) = yearText year ++ rest := by
  obtain ⟨hne, hchars⟩ := yearText_chars year
  obtain ⟨c, cs, hcons⟩ := List.exists_cons_of_ne_nil hne
  rw [hcons] at hchars ⊢
  refine trimStart_of_not_isBlank ?_ _
  obtain h | rfl | rfl := hchars c (by simp)
  · exact isBlank_of_isDigit h
  · decide
  · decide

theorem readCalendar?_text (d : Date) : readCalendar? d.text = some d := by
  have hmonth : (padded 2 d.month).length ≤ 2 :=
    Nat.le_of_eq (length_padded (by decide) (by have := d.month_le; omega))
  have hday : (padded 2 d.day).length ≤ 2 :=
    Nat.le_of_eq (length_padded (by decide) (by have := d.day_le; omega))
  have hreadMonth : readUpTo? 2 (padded 2 d.month ++ '-' :: padded 2 d.day) =
      some (d.month, '-' :: padded 2 d.day) := readUpTo?_padded hmonth (by simp)
  have hreadDay : readUpTo? 2 (padded 2 d.day) = some (d.day, []) := by
    have hnil : ∀ c ∈ ([] : List Char).head?, c.isDigit = false := by simp
    simpa using readUpTo?_padded hday hnil
  have htrimDay : trimStart (padded 2 d.day) = padded 2 d.day := by
    simpa using trimStart_padded 2 d.day []
  simp [readCalendar?, text, trimStart_yearText, readYear?_yearText, after?, trimStart_padded,
    hreadMonth, htrimDay, hreadDay, ofNumbers?_self]

/-- A written date is read as itself. -/
theorem read?_text (d : Date) : read? d.text = some d := by
  simp [read?, readCalendar?_text]

theorem text_chars (d : Date) :
    d.text ≠ [] ∧ ∀ c ∈ d.text, c.isDigit = true ∨ c = '-' ∨ c = '+' := by
  obtain ⟨hne, hyear⟩ := yearText_chars d.year
  refine ⟨by simp [text], ?_⟩
  intro c hc
  simp only [text, List.mem_append, List.mem_cons] at hc
  obtain hc | rfl | hc | rfl | hc := hc
  · exact hyear c hc
  · exact .inr (.inl rfl)
  · exact .inl (isDigit_of_mem_padded hc)
  · exact .inr (.inl rfl)
  · exact .inl (isDigit_of_mem_padded hc)

/-- A plus sign stands before a year that takes more than four digits, and nowhere else. -/
theorem plus_mem_text_iff {d : Date} : '+' ∈ d.text ↔ 9999 < d.year := by
  have hpadded (width n : Nat) : '+' ∉ padded width n :=
    fun hmem => absurd (isDigit_of_mem_padded hmem) (by decide)
  have hyear : '+' ∈ yearText d.year ↔ 9999 < d.year := by
    unfold yearText
    split
    · rename_i hfour
      simp only [Bool.and_eq_true, decide_eq_true_eq] at hfour
      exact iff_of_false (hpadded _ _) (by omega)
    · rename_i hsigned
      simp only [Bool.and_eq_true, decide_eq_true_eq, not_and, Int.not_le] at hsigned
      split
      · rename_i hneg
        exact iff_of_false (by simp [hpadded]) (by omega)
      · exact iff_of_true List.mem_cons_self (hsigned (by omega))
  simp [text, hyear, hpadded]

end Date

end BoolQuery
