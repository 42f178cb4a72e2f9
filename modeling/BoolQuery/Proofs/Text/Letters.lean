import BoolQuery.Text.Ascii
import BoolQuery.Text.Blank

/-! ASCII letters and digits by their code points, and what a change of letter case does to
them. -/

namespace BoolQuery.Text

variable {c : Char}

theorem isDigit_iff : c.isDigit = true ↔ 48 ≤ c.toNat ∧ c.toNat ≤ 57 :=
  Char.isDigit_iff_toNat

theorem isUpper_iff : c.isUpper = true ↔ 65 ≤ c.toNat ∧ c.toNat ≤ 90 := by
  show decide (c.val ≥ 'A'.val ∧ c.val ≤ 'Z'.val) = true ↔ _
  rw [decide_eq_true_iff, ge_iff_le, UInt32.le_iff_toNat_le, UInt32.le_iff_toNat_le]
  exact Iff.rfl

theorem isLower_iff : c.isLower = true ↔ 97 ≤ c.toNat ∧ c.toNat ≤ 122 := by
  show (decide (c.val ≥ 'a'.val) && decide (c.val ≤ 'z'.val)) = true ↔ _
  rw [Bool.and_eq_true, decide_eq_true_iff, decide_eq_true_iff, ge_iff_le,
    UInt32.le_iff_toNat_le, UInt32.le_iff_toNat_le]
  exact Iff.rfl

theorem isAlpha_iff : c.isAlpha = true ↔ c.isUpper = true ∨ c.isLower = true :=
  Bool.or_eq_true_iff

theorem isAlphanum_iff : c.isAlphanum = true ↔ c.isAlpha = true ∨ c.isDigit = true :=
  Bool.or_eq_true_iff

theorem not_isAlpha_of_isDigit (h : c.isDigit = true) : c.isAlpha = false := by
  apply Bool.eq_false_iff.2
  intro halpha
  rw [isAlpha_iff, isUpper_iff, isLower_iff] at halpha
  rw [isDigit_iff] at h
  omega

theorem not_isUpper_of_isDigit (h : c.isDigit = true) : c.isUpper = false := by
  apply Bool.eq_false_iff.2
  intro hupper
  have halpha := not_isAlpha_of_isDigit h
  rw [isAlpha_iff.2 (.inl hupper)] at halpha
  cases halpha

theorem isBlank_of_isAlphanum (h : c.isAlphanum = true) : isBlank c = false := by
  rw [isAlphanum_iff, isAlpha_iff, isUpper_iff, isLower_iff, isDigit_iff] at h
  simp only [isBlank, Bool.or_eq_false_iff, Bool.and_eq_false_iff, beq_eq_false_iff_ne,
    decide_eq_false_iff_not]
  omega

theorem isBlank_of_isDigit (h : c.isDigit = true) : isBlank c = false :=
  isBlank_of_isAlphanum (isAlphanum_iff.2 (.inr h))

/-- What holds of the 26 letters from `first` on. -/
theorem forall_letter (first : Nat) (p : Char → Bool)
    (h : ∀ n < 26, p (Char.ofNat (first + n)) = true)
    (hrange : first ≤ c.toNat ∧ c.toNat ≤ first + 25) : p c = true := by
  have hnat : first + (c.toNat - first) = c.toNat := by omega
  have hc := h (c.toNat - first) (by omega)
  rwa [hnat, Char.ofNat_toNat] at hc

theorem isUpper_toUpper (h : c.isLower = true) : c.toUpper.isUpper = true :=
  forall_letter 97 (fun c => c.toUpper.isUpper) (by decide) (isLower_iff.1 h)

theorem toLower_toUpper (h : c.isLower = true) : c.toUpper.toLower = c :=
  eq_of_beq (forall_letter 97 (fun c => c.toUpper.toLower == c) (by decide) (isLower_iff.1 h))

theorem isLower_toLower (h : c.isUpper = true) : c.toLower.isLower = true :=
  forall_letter 65 (fun c => c.toLower.isLower) (by decide) (isUpper_iff.1 h)

theorem toUpper_of_not_isLower (h : c.isLower = false) : c.toUpper = c := by
  apply dif_neg
  intro hrange
  have hlower : c.isLower = true := isLower_iff.2 hrange
  rw [h] at hlower
  cases hlower

theorem toLower_of_not_isUpper (h : c.isUpper = false) : c.toLower = c := by
  apply dif_neg
  intro hrange
  have hupper : c.isUpper = true := isUpper_iff.2 hrange
  rw [h] at hupper
  cases hupper

theorem not_isUpper_of_isLower (h : c.isLower = true) : c.isUpper = false := by
  apply Bool.eq_false_iff.2
  intro hupper
  rw [isLower_iff] at h
  rw [isUpper_iff] at hupper
  omega

theorem isAlpha_of_toLower (h : c.toLower.isAlpha = true) : c.isAlpha = true := by
  by_cases hupper : c.isUpper = true
  · exact isAlpha_iff.2 (.inl hupper)
  · rwa [toLower_of_not_isUpper (Bool.eq_false_iff.2 hupper)] at h

theorem toLower_eq (s : String) : s.toLower = String.ofList (s.toList.map Char.toLower) := by
  show s.map Char.toLower = _
  rw [← String.toList_inj, String.toList_map, String.toList_ofList]

/-- Letter case is compared character by character. -/
theorem equalsIgnoringCase_eq (s t : String) : equalsIgnoringCase s t =
    (s.toList.map Char.toLower == t.toList.map Char.toLower) := by
  rw [Bool.eq_iff_iff, equalsIgnoringCase_iff, toLower_eq, toLower_eq, String.ofList_inj,
    beq_iff_eq]

end BoolQuery.Text
