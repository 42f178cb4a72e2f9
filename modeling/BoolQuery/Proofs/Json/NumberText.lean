import BoolQuery.Json.Reader
import BoolQuery.Proofs.Numeric.ReadBack

/-! The text of a number in JSON is read as a decimal of the same rank, whatever document it
stands in. The decimal itself may be another one: `1e3` is written `1000.0`. -/

namespace BoolQuery.Json
open Text Numeric

/-- What may follow a value: a comma, a closing bracket or brace, or nothing. -/
def Closes (rest : List Char) : Prop := ∀ c ∈ rest.head?, c = ',' ∨ c = ']' ∨ c = '\x7d'

/-- Digits that may stand before a point. -/
structure IsWhole (ds : List Char) : Prop where
  ne_nil : ds ≠ []
  isDigit : ∀ c ∈ ds, c.isDigit = true
  leading : ds = ['0'] ∨ ds.head? ≠ some '0'

/-- The digits behind a point, and the point if there are any. -/
def pointText : List Char → List Char
  | [] => []
  | fraction => '.' :: fraction

def powerText (power : Int) : List Char :=
  'e' :: (if power < 0 then '-' else '+') :: digits power.natAbs

/-- A number whose power of ten is written unless it is zero. -/
structure Spells (cs whole fraction : List Char) (power : Int) : Prop where
  isWhole : IsWhole whole
  isDigit : ∀ c ∈ fraction, c.isDigit = true
  text : (power = 0 ∧ cs = whole ++ pointText fraction) ∨
    cs = whole ++ (pointText fraction ++ powerText power)

variable {cs whole fraction tail rest : List Char} {power : Int} {d : Decimal}

theorem closes_nil : Closes [] := by simp [Closes]

theorem pointText_eq (h : fraction ≠ []) : pointText fraction = '.' :: fraction := by
  rw [pointText]
  exact h

theorem Closes.head (h : Closes rest) :
    ∀ c ∈ rest.head?, c.isDigit = false ∧ c ≠ '.' ∧ c ≠ 'e' ∧ c ≠ 'E' := by
  intro c hc
  obtain rfl | rfl | rfl := h c hc <;> decide

theorem readWhole_append (hwhole : IsWhole whole)
    (htail : ∀ c ∈ tail.head?, c.isDigit = false) :
    readWhole (whole ++ tail) = some (whole, tail) := by
  unfold readWhole
  rw [spanDigits_append_of hwhole.isDigit htail]
  obtain rfl | hhead := hwhole.leading
  · rfl
  · obtain ⟨c, cs, rfl⟩ := List.exists_cons_of_ne_nil hwhole.ne_nil
    have hc : c ≠ '0' := fun h => hhead (by simp [h])
    simp [hc]

theorem readFraction_append (hdigits : ∀ c ∈ fraction, c.isDigit = true)
    (htail : ∀ c ∈ tail.head?, c.isDigit = false ∧ c ≠ '.') :
    readFraction (pointText fraction ++ tail) = some (fraction, tail) := by
  cases fraction with
  | nil =>
    cases tail with
    | nil => rfl
    | cons c tail =>
      obtain ⟨-, hpoint⟩ := htail c rfl
      rw [pointText, List.nil_append, readFraction]
      intro rest heq
      exact hpoint (List.cons.inj heq).1
  | cons c cs =>
    have hspan := spanDigits_append_of hdigits fun c hc => (htail c hc).1
    rw [pointText_eq (List.cons_ne_nil c cs), List.cons_append, readFraction, hspan]
    rfl

theorem spanExponent?_of_closes (h : Closes rest) :
    Decimal.spanExponent? rest = some (0, rest) := by
  cases rest with
  | nil => rfl
  | cons c rest =>
    obtain ⟨-, -, he, hE⟩ := h.head c rfl
    simp [Decimal.spanExponent?, he, hE]

theorem spanExponent?_powerText (h : Closes rest) :
    Decimal.spanExponent? (powerText power ++ rest) = some (power, rest) := by
  have hspan : spanDigits (digits power.natAbs ++ rest) = (digits power.natAbs, rest) :=
    spanDigits_append_of (fun _ => isDigit_of_mem_digits) fun c hc => (h.head c hc).1
  by_cases hneg : power < 0
  · have hpower : -|power| = power := by rw [abs_of_neg hneg, neg_neg]
    simp [powerText, Decimal.spanExponent?, hneg, Decimal.splitSign, hspan, digits_ne_nil,
      Decimal.signed, hpower]
  · have hpower : |power| = power := abs_of_nonneg (by omega)
    simp [powerText, Decimal.spanExponent?, hneg, Decimal.splitSign, hspan, digits_ne_nil,
      Decimal.signed, hpower]

/-- A number is read part by part. -/
theorem readUnsigned_append (hwhole : IsWhole whole)
    (hfraction : ∀ c ∈ fraction, c.isDigit = true)
    (htail : ∀ c ∈ tail.head?, c.isDigit = false ∧ c ≠ '.')
    (hpower : Decimal.spanExponent? tail = some (power, rest)) :
    readUnsigned (whole ++ (pointText fraction ++ tail)) =
      some (Decimal.ofParts whole fraction power, rest) := by
  have hpoint : ∀ c ∈ (pointText fraction ++ tail).head?, c.isDigit = false := by
    cases fraction with
    | nil => exact fun c hc => (htail c hc).1
    | cons _ _ => simp [pointText]
  simp only [readUnsigned, readWhole_append hwhole hpoint, readFraction_append hfraction htail,
    hpower, Option.bind_eq_bind, Option.bind_some]

theorem Spells.readUnsigned (h : Spells cs whole fraction power) (hrest : Closes rest) :
    readUnsigned (cs ++ rest) = some (Decimal.ofParts whole fraction power, rest) := by
  obtain ⟨rfl, rfl⟩ | rfl := h.text
  · rw [List.append_assoc]
    exact readUnsigned_append h.isWhole h.isDigit
      (fun c hc => ⟨(hrest.head c hc).1, (hrest.head c hc).2.1⟩) (spanExponent?_of_closes hrest)
  · rw [List.append_assoc, List.append_assoc]
    exact readUnsigned_append h.isWhole h.isDigit (by simp [powerText])
      (spanExponent?_powerText hrest)

/-- A decimal whose text has no zeros in front of the digits of a whole number. -/
def IsPlain (d : Decimal) : Prop := d.digits = 0 → d.exponent ≤ 0

theorem spells_positional (hd : IsPlain d) :
    ∃ whole fraction, Spells (d.positional ['.', '0']) whole fraction 0 ∧
      Double.rankOfDecimal (Decimal.ofParts whole fraction 0) = Double.rankOfDecimal d := by
  obtain ⟨whole, fraction, hplaces, htext⟩ := Decimal.positional_cases ['.', '0'] d
  have hwhole : IsWhole whole :=
    ⟨hplaces.whole_ne_nil, hplaces.whole_digits, hplaces.leading hd⟩
  obtain ⟨rfl, htext⟩ | ⟨hne, htext⟩ := htext
  · refine ⟨whole, ['0'], ⟨hwhole, List.forall_mem_singleton.2 rfl, .inl ⟨rfl, htext⟩⟩, ?_⟩
    have hdigits : ofDigits (whole ++ ['0']) = ofDigits whole * 10 := ofDigits_append_zeros whole 1
    have hrank := hplaces.rank
    rw [Decimal.ofParts, List.append_nil] at hrank
    rw [Decimal.ofParts, hdigits]
    exact (Decimal.rankOfDecimal_mul_ten 0).trans hrank
  · rw [← pointText_eq hne] at htext
    exact ⟨whole, fraction, ⟨hwhole, hplaces.fraction_digits, .inl ⟨rfl, htext⟩⟩, hplaces.rank⟩

theorem spells_scientific (hd : d.digits ≠ 0) :
    ∃ whole fraction power, Spells d.scientific whole fraction power ∧
      Decimal.ofParts whole fraction power = d := by
  obtain ⟨c, cs, hcons⟩ := List.exists_cons_of_ne_nil (digits_ne_nil d.digits)
  have hdigit : ∀ c' ∈ c :: cs, c'.isDigit = true := fun c' hc' =>
    isDigit_of_mem_digits (hcons ▸ hc')
  have hhead := head?_digits_ne_zero (Nat.pos_of_ne_zero hd)
  rw [hcons] at hhead
  refine ⟨[c], cs, d.point - 1, ⟨⟨List.cons_ne_nil _ _, ?_, .inr hhead⟩, ?_, .inr ?_⟩, ?_⟩
  · exact List.forall_mem_singleton.2 (hdigit c (by simp))
  · exact fun c' hc' => hdigit c' (by simp [hc'])
  · rw [Decimal.scientific, hcons]
    cases cs <;> rfl
  · have hwidth : d.width = cs.length + 1 := by rw [Decimal.width, hcons, List.length_cons]
    have hexp : d.point - 1 - (cs.length : Int) = d.exponent := by
      rw [Decimal.point, hwidth]
      push_cast
      omega
    rw [Decimal.ofParts, hexp, List.singleton_append, ← hcons, ofDigits_digits]

theorem spells_fractional (hd : IsPlain d) :
    ∃ whole fraction power, Spells d.fractional whole fraction power ∧
      Double.rankOfDecimal (Decimal.ofParts whole fraction power) = Double.rankOfDecimal d := by
  unfold Decimal.fractional
  split
  next =>
    obtain ⟨whole, fraction, hspells, hrank⟩ := spells_positional hd
    exact ⟨whole, fraction, 0, hspells, hrank⟩
  next hout =>
    have hdigits : d.digits ≠ 0 := fun hzero => hout (by simp [hzero])
    obtain ⟨whole, fraction, power, hspells, heq⟩ := spells_scientific hdigits
    exact ⟨whole, fraction, power, hspells, by rw [heq]⟩

end BoolQuery.Json

namespace BoolQuery.Numeric.Decimal
open Json

variable {d : Decimal} {rest : List Char}

/-- The decimal that is read from the text of this one. -/
def reread (d : Decimal) : Decimal := ((readUnsigned d.fractional).map (·.1)).getD d

theorem exists_spells_fractional (hd : IsPlain d) :
    ∃ whole fraction power, Spells d.fractional whole fraction power ∧
      d.reread = ofParts whole fraction power ∧
      Double.rankOfDecimal d.reread = Double.rankOfDecimal d := by
  obtain ⟨whole, fraction, power, hspells, hrank⟩ := spells_fractional hd
  have hread := hspells.readUnsigned closes_nil
  rw [List.append_nil] at hread
  have hreread : d.reread = ofParts whole fraction power := by rw [reread, hread]; rfl
  exact ⟨whole, fraction, power, hspells, hreread, by rw [hreread, hrank]⟩

theorem readUnsigned_fractional (hd : IsPlain d) (hrest : Closes rest) :
    readUnsigned (d.fractional ++ rest) = some (d.reread, rest) := by
  obtain ⟨whole, fraction, power, hspells, hreread, _⟩ := exists_spells_fractional hd
  rw [hspells.readUnsigned hrest, hreread]

theorem rankOfDecimal_reread (hd : IsPlain d) :
    Double.rankOfDecimal d.reread = Double.rankOfDecimal d := by
  obtain ⟨_, _, _, _, _, hrank⟩ := exists_spells_fractional hd
  exact hrank

/-- The text of a decimal begins with a digit. -/
theorem exists_fractional_eq (hd : IsPlain d) :
    ∃ c cs, d.fractional = c :: cs ∧ c.isDigit = true := by
  obtain ⟨whole, fraction, power, hspells, _⟩ := spells_fractional hd
  obtain ⟨c, cs, rfl⟩ := List.exists_cons_of_ne_nil hspells.isWhole.ne_nil
  have hc := hspells.isWhole.isDigit c (by simp)
  obtain ⟨_, htext⟩ | htext := hspells.text
  · exact ⟨c, _, htext, hc⟩
  · exact ⟨c, _, htext, hc⟩

end BoolQuery.Numeric.Decimal
