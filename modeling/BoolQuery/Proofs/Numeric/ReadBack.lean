import BoolQuery.Numeric.Layout
import BoolQuery.Proofs.Lists
import BoolQuery.Proofs.Numeric.Rounding
import BoolQuery.Text.Blank

/-! What is written for a finite number in a query is read as that number. -/

namespace BoolQuery

namespace Text

theorem isDigit_of_mem_digits {n : Nat} {c : Char} (h : c ∈ digits n) : c.isDigit = true :=
  Nat.isDigit_of_mem_toDigits (by decide) (by decide) h

theorem digits_ne_nil (n : Nat) : digits n ≠ [] := Nat.toDigits_ne_nil

/-- Only zero is written with a leading zero. -/
theorem head?_digits_ne_zero {n : Nat} (h : 0 < n) : (digits n).head? ≠ some '0' := by
  induction n using Nat.strong_induction_on with
  | h n ih =>
    rw [digits, Nat.toDigits_eq_if (by decide)]
    split
    next hlt =>
      have hsmall : ∀ m < 10, 0 < m → [Nat.digitChar m].head? ≠ some '0' := by decide
      exact hsmall n hlt h
    next hge =>
      rw [List.head?_append_of_ne_nil _ Nat.toDigits_ne_nil]
      exact ih (n / 10) (by omega) (by omega)

theorem isDigit_of_mem_zeros {n : Nat} {c : Char} (h : c ∈ List.replicate n '0') :
    c.isDigit = true := by
  rw [List.eq_of_mem_replicate h]
  decide

theorem ofDigits_zeros_append (n : Nat) (ds : List Char) :
    ofDigits (List.replicate n '0' ++ ds) = ofDigits ds := by
  simp [ofDigits, Nat.ofDigitChars_append, Nat.ofDigitChars_replicate_zero]

theorem ofDigits_append_zeros (ds : List Char) (n : Nat) :
    ofDigits (ds ++ List.replicate n '0') = ofDigits ds * 10 ^ n := by
  simp [ofDigits, Nat.ofDigitChars_append, Nat.ofDigitChars_replicate_zero, Nat.mul_comm]

/-- The digits at the start end where a character is none. -/
theorem spanDigits_append_of {ds rest : List Char} (h : ∀ c ∈ ds, c.isDigit = true)
    (hrest : ∀ c ∈ rest.head?, c.isDigit = false) : spanDigits (ds ++ rest) = (ds, rest) := by
  obtain ⟨htake, hdrop⟩ := scan_of_forall h hrest
  rw [spanDigits, htake, hdrop]

theorem trim_of_not_isBlank {cs : List Char} (h : ∀ c ∈ cs, isBlank c = false) :
    trim cs = cs := by
  have hstart (ds : List Char) (hds : ∀ c ∈ ds, isBlank c = false) : trimStart ds = ds := by
    cases ds with
    | nil => rfl
    | cons c ds => exact trimStart_of_not_isBlank (hds c (by simp)) ds
  rw [trim, hstart cs h, hstart _ (by simpa using h), List.reverse_reverse]

end Text

namespace Numeric
open Text

namespace Decimal

theorem read?_whole {ds : List Char} (hne : ds ≠ []) (h : ∀ c ∈ ds, c.isDigit = true) :
    read? ds = some ⟨ofDigits ds, 0⟩ := by
  have hnil : ∀ c ∈ ([] : List Char).head?, c.isDigit = false := by simp
  have hspan : spanDigits ds = (ds, []) := by
    simpa using spanDigits_append_of h hnil
  simp [read?, hspan, spanFraction, spanExponent?, ofParts, hne]

theorem read?_point {whole fraction : List Char} (hne : whole ≠ [])
    (hwhole : ∀ c ∈ whole, c.isDigit = true) (hfraction : ∀ c ∈ fraction, c.isDigit = true) :
    read? (whole ++ '.' :: fraction) =
      some ⟨ofDigits (whole ++ fraction), -(fraction.length : Int)⟩ := by
  have hpoint : spanDigits (whole ++ '.' :: fraction) = (whole, '.' :: fraction) :=
    spanDigits_append_of hwhole (by simp)
  have hnil : ∀ c ∈ ([] : List Char).head?, c.isDigit = false := by simp
  have hspan : spanDigits fraction = (fraction, []) := by
    simpa using spanDigits_append_of hfraction hnil
  simp [read?, hpoint, spanFraction, hspan, spanExponent?, ofParts, hne]

theorem width_mul_ten_pow {n : Nat} (hn : 0 < n) (k : Nat) (e e' : Int) :
    width ⟨n * 10 ^ k, e⟩ = width ⟨n, e'⟩ + k := by
  induction k with
  | zero => simp [width]
  | succ k ih =>
    have hpos : 0 < n * 10 ^ k := Nat.mul_pos hn (Nat.pow_pos (by decide))
    have happend : Text.digits (n * 10 ^ (k + 1)) = Text.digits (n * 10 ^ k) ++ ['0'] := by
      have := Nat.toDigits_append_toDigits (b := 10) (d := 0) (by decide) hpos (by decide)
      rw [Nat.toDigits_zero] at this
      rw [Text.digits, Text.digits, this, Nat.pow_succ]
      congr 1
      ring
    simp only [width] at ih ⊢
    rw [happend, List.length_append, ih]
    rfl

/-- A zero at the end of the digits can as well be in the power of ten. -/
theorem rankOfDecimal_mul_ten {n : Nat} (e : Int) :
    Double.rankOfDecimal ⟨n * 10, e - 1⟩ = Double.rankOfDecimal ⟨n, e⟩ := by
  by_cases hzero : n = 0
  · simp [Double.rankOfDecimal, hzero]
  · have hpos := Nat.pos_of_ne_zero hzero
    have hpoint : point ⟨n * 10, e - 1⟩ = point ⟨n, e⟩ := by
      have hwidth : width ⟨n * 10 ^ 1, e - 1⟩ = width ⟨n, e⟩ + 1 := width_mul_ten_pow hpos 1 _ _
      rw [pow_one] at hwidth
      simp only [point, hwidth]
      omega
    have hratio : Double.rankOfRatio (n * 10 * Nat.pow 10 (e - 1).toNat)
        (Nat.pow 10 (-(e - 1)).toNat) =
        Double.rankOfRatio (n * Nat.pow 10 e.toNat) (Nat.pow 10 (-e).toNat) := by
      by_cases he : 0 < e
      · obtain ⟨k, rfl⟩ : ∃ k : Nat, e = k + 1 := ⟨(e - 1).toNat, by omega⟩
        have hnum : n * 10 * 10 ^ k = n * 10 ^ (k + 1) := by ring
        have hexp : ((k : Int) + 1 - 1).toNat = k := by omega
        have hexp' : ((k : Int) + 1).toNat = k + 1 := by omega
        have hden : (-((k : Int) + 1 - 1)).toNat = (-((k : Int) + 1)).toNat := by omega
        simp only [Nat.pow_eq, hexp, hexp', hden, hnum]
      · have hnum : (e - 1).toNat = e.toNat := by omega
        have hden : (-(e - 1)).toNat = (-e).toNat + 1 := by omega
        simp only [Nat.pow_eq, hnum, hden, pow_succ]
        rw [Nat.mul_right_comm]
        exact Double.rankOfRatio_mul (by positivity) (by positivity) (by decide)
    simp only [Double.rankOfDecimal, hpoint, hzero, Nat.mul_eq_zero, OfNat.ofNat_ne_zero, or_self,
      hratio]

/-- Zeros at the end of the digits can as well be in the power of ten. -/
theorem rankOfDecimal_mul_ten_pow {n : Nat} (k : Nat) (e : Int) :
    Double.rankOfDecimal ⟨n * 10 ^ k, e - k⟩ = Double.rankOfDecimal ⟨n, e⟩ := by
  induction k with
  | zero => simp
  | succ k ih =>
    rw [pow_succ, ← mul_assoc, Nat.cast_succ, ← sub_sub, rankOfDecimal_mul_ten, ih]

theorem isDigit_of_mem_take {n : Nat} {k : Nat} {c : Char} (h : c ∈ (Text.digits n).take k) :
    c.isDigit = true :=
  isDigit_of_mem_digits (List.mem_of_mem_take h)

theorem isDigit_of_mem_drop {n : Nat} {k : Nat} {c : Char} (h : c ∈ (Text.digits n).drop k) :
    c.isDigit = true :=
  isDigit_of_mem_digits (List.mem_of_mem_drop h)

theorem take_digits_ne_nil {n k : Nat} (h : 0 < k) : (Text.digits n).take k ≠ [] := by
  simp [List.take_eq_nil_iff, digits_ne_nil, Nat.ne_of_gt h]

/-- The digits of a decimal on both sides of its point. Zeros at the end of a whole number are
counted as digits. -/
structure Places (d : Decimal) (whole fraction : List Char) : Prop where
  whole_ne_nil : whole ≠ []
  whole_digits : ∀ c ∈ whole, c.isDigit = true
  fraction_digits : ∀ c ∈ fraction, c.isDigit = true
  leading : (d.digits = 0 → d.exponent ≤ 0) → whole = ['0'] ∨ whole.head? ≠ some '0'
  rank : Double.rankOfDecimal (ofParts whole fraction 0) = Double.rankOfDecimal d

theorem places_below_one {d : Decimal} (hpoint : d.point ≤ 0) :
    Places d ['0'] (List.replicate (-d.point).toNat '0' ++ Text.digits d.digits) := by
  have hlength : (Text.digits d.digits).length = d.width := rfl
  refine ⟨by simp, List.forall_mem_singleton.2 rfl, ?_, fun _ => .inl rfl, ?_⟩
  · intro c hc
    obtain hc | hc := List.mem_append.1 hc
    · exact isDigit_of_mem_zeros hc
    · exact isDigit_of_mem_digits hc
  · have hdigits : ofDigits (['0'] ++
        (List.replicate (-d.point).toNat '0' ++ Text.digits d.digits)) = d.digits := by
      have hzero := ofDigits_zeros_append 1
        (List.replicate (-d.point).toNat '0' ++ Text.digits d.digits)
      exact hzero.trans (by rw [ofDigits_zeros_append, ofDigits_digits])
    have hexp : 0 - ((List.replicate (-d.point).toNat '0' ++ Text.digits d.digits).length : Int) =
        d.exponent := by
      simp only [List.length_append, List.length_replicate, hlength]
      unfold point at *
      omega
    rw [ofParts, hexp, hdigits]

theorem places_whole {d : Decimal} (hexp : 0 ≤ d.exponent) :
    Places d (Text.digits d.digits ++ List.replicate d.exponent.toNat '0') [] := by
  refine ⟨by simp [digits_ne_nil], ?_, by simp, fun hzero => ?_, ?_⟩
  · intro c hc
    obtain hc | hc := List.mem_append.1 hc
    · exact isDigit_of_mem_digits hc
    · exact isDigit_of_mem_zeros hc
  · by_cases hdigits : d.digits = 0
    · have hexp' : d.exponent = 0 := le_antisymm (hzero hdigits) hexp
      exact .inl (by simp [hdigits, hexp', Text.digits, Nat.toDigits_zero])
    · right
      rw [List.head?_append_of_ne_nil _ (digits_ne_nil _)]
      exact head?_digits_ne_zero (Nat.pos_of_ne_zero hdigits)
  · have hrank := rankOfDecimal_mul_ten_pow (n := d.digits) d.exponent.toNat d.exponent
    rw [Int.toNat_of_nonneg hexp, sub_self] at hrank
    rw [ofParts, List.append_nil, ofDigits_append_zeros, ofDigits_digits]
    exact hrank

theorem places_split {d : Decimal} (hpoint : 0 < d.point) (hexp : d.exponent < 0) :
    Places d ((Text.digits d.digits).take d.point.toNat)
      ((Text.digits d.digits).drop d.point.toNat) := by
  have hlength : (Text.digits d.digits).length = d.width := rfl
  refine ⟨take_digits_ne_nil (by omega), fun c => isDigit_of_mem_take, fun c => isDigit_of_mem_drop,
    fun _ => .inr ?_, ?_⟩
  · have hdigits : d.digits ≠ 0 := by
      intro hzero
      have hone : d.width = 1 := by simp [width, hzero, Text.digits, Nat.toDigits_zero]
      unfold point at hpoint
      omega
    rw [List.head?_take, if_neg (by omega)]
    exact head?_digits_ne_zero (Nat.pos_of_ne_zero hdigits)
  · have hexp' : 0 - (((Text.digits d.digits).drop d.point.toNat).length : Int) = d.exponent := by
      rw [List.length_drop, hlength]
      unfold point at *
      omega
    rw [ofParts, List.take_append_drop, ofDigits_digits, hexp']

/-- A decimal is written by the digits of its places, unless it is whole and its text ends as
whole numbers do. -/
theorem positional_cases (wholeEnd : List Char) (d : Decimal) :
    ∃ whole fraction, Places d whole fraction ∧
      ((fraction = [] ∧ d.positional wholeEnd = whole ++ wholeEnd) ∨
        (fraction ≠ [] ∧ d.positional wholeEnd = whole ++ '.' :: fraction)) := by
  have hlength : (Text.digits d.digits).length = d.width := rfl
  unfold positional
  by_cases hpoint : d.point ≤ 0
  · exact ⟨_, _, places_below_one hpoint, .inr ⟨by simp [digits_ne_nil], if_pos hpoint⟩⟩
  · simp only [if_neg hpoint]
    by_cases hexp : 0 ≤ d.exponent
    · exact ⟨_, _, places_whole hexp, .inl ⟨rfl, if_pos hexp⟩⟩
    · refine ⟨_, _, places_split (by omega) (by omega), .inr ⟨fun hnil => ?_, if_neg hexp⟩⟩
      have hlen := congrArg List.length hnil
      rw [List.length_drop, hlength, List.length_nil] at hlen
      unfold point at *
      omega

/-- The places of a decimal are read as a decimal of the same rank. -/
theorem read?_positional (d : Decimal) :
    ∃ e, read? (d.positional []) = some e ∧ Double.rankOfDecimal e = Double.rankOfDecimal d := by
  obtain ⟨whole, fraction, hplaces, ⟨rfl, htext⟩ | ⟨_, htext⟩⟩ := positional_cases [] d
  · rw [htext, List.append_nil, read?_whole hplaces.whole_ne_nil hplaces.whole_digits]
    exact ⟨_, rfl, by simpa [ofParts] using hplaces.rank⟩
  · rw [htext, read?_point hplaces.whole_ne_nil hplaces.whole_digits hplaces.fraction_digits]
    exact ⟨_, rfl, by simpa [ofParts] using hplaces.rank⟩

/-- Only digits and a point are written, a digit first. -/
theorem positional_chars (d : Decimal) :
    ∃ c cs, d.positional [] = c :: cs ∧ c.isDigit = true ∧
      ∀ c' ∈ cs, c'.isDigit = true ∨ c' = '.' := by
  obtain ⟨whole, fraction, hplaces, htext⟩ := positional_cases [] d
  obtain ⟨c, cs, rfl⟩ := List.exists_cons_of_ne_nil hplaces.whole_ne_nil
  obtain ⟨hc, hcs⟩ := List.forall_mem_cons.1 hplaces.whole_digits
  obtain ⟨_, htext⟩ | ⟨_, htext⟩ := htext
  · exact ⟨c, cs, by rw [htext, List.append_nil], hc, fun c' hc' => .inl (hcs c' hc')⟩
  · refine ⟨c, cs ++ '.' :: fraction, htext, hc, fun c' hc' => ?_⟩
    simp only [List.mem_append, List.mem_cons] at hc'
    obtain hc' | rfl | hc' := hc'
    · exact .inl (hcs c' hc')
    · exact .inr rfl
    · exact .inl (hplaces.fraction_digits c' hc')

end Decimal

namespace Double

variable {x : Double}

theorem splitSign_of_isDigit {c : Char} (h : c.isDigit = true) (cs : List Char) :
    Decimal.splitSign (c :: cs) = (false, c :: cs) := by
  unfold Decimal.splitSign
  split
  · rename_i heq
    obtain ⟨rfl, rfl⟩ := List.cons.inj heq
    simp at h
  · rename_i heq
    obtain ⟨rfl, rfl⟩ := List.cons.inj heq
    simp at h
  · rfl

theorem splitSign_signText (negative : Bool) {cs : List Char} {c : Char} (ds : List Char)
    (hcons : cs = c :: ds) (h : c.isDigit = true) :
    Decimal.splitSign (signText negative ++ cs) = (negative, cs) := by
  cases negative with
  | true => rfl
  | false =>
    rw [hcons]
    exact splitSign_of_isDigit h ds

theorem beq_self (hfin : x.isFinite = true) : (x == x) = true := by
  have hnan : x.isNaN = false := by
    rw [isFinite_iff] at hfin
    simp only [isNaN, decide_eq_false_iff_not]
    omega
  show equal x x = true
  simp [equal, hnan]

theorem eq_of_magnitude {y : Double} (hneg : x.negative = y.negative)
    (hmag : x.magnitude = y.magnitude) : x = y := by
  obtain ⟨negative, magnitude, _⟩ := x
  obtain ⟨negative', magnitude', _⟩ := y
  simp only [mk.injEq]
  exact ⟨hneg, hmag⟩

/-- A query says the same for equal numbers. -/
theorem queryText_of_beq {y : Double} (h : (x == y) = true) : x.queryText = y.queryText := by
  have heq : equal x y = true := h
  simp only [equal, Bool.and_eq_true, Bool.or_eq_true, beq_iff_eq] at heq
  obtain ⟨⟨_, hmag⟩, hsign⟩ := heq
  have hfin : x.isFinite = y.isFinite := by simp [isFinite, hmag]
  have hzero : x.isZero = y.isZero := by simp [isZero, hmag]
  rw [queryText, queryText, hfin, ← hzero]
  rcases hsign with hneg | hx
  · rw [eq_of_magnitude hneg hmag]
  · rw [if_pos hx, if_pos hx]

/-- A finite number is read back from the text of its places. -/
theorem read?_placesText (hfin : x.isFinite = true) (hzero : x.isZero = false) :
    read? x.placesText = some x := by
  obtain ⟨e, hread, hrank⟩ := Decimal.read?_positional (x.shortest .up)
  obtain ⟨c, ds, hcons, hc, _⟩ := Decimal.positional_chars (x.shortest .up)
  have hx : ofDecimal x.negative e = x := by
    obtain ⟨negative, magnitude, _⟩ := x
    simp only [ofDecimal, mk.injEq, true_and]
    rw [hrank, rankOfDecimal_shortest .up hfin hzero]
  simp only [read?, placesText, splitSign_signText x.negative ds hcons hc, hread, Option.map_some,
    hx]
  simp [Option.filter, hfin]

/-- What a query says for a finite number is read as an equal one: of the two zeros only one
is written. -/
theorem read?_queryText (hfin : x.isFinite = true) :
    ∃ y, read? x.queryText = some y ∧ (y == x) = true := by
  by_cases hzero : x.isZero = true
  · refine ⟨⟨false, 0, by decide⟩, ?_, ?_⟩
    · rw [queryText, if_neg (by simp [hfin]), if_pos hzero]
      decide +kernel
    · have hmag : x.magnitude = 0 := by simpa [isZero] using hzero
      show equal _ x = true
      simp [equal, isNaN, isZero, hmag]
  · have hzero := Bool.eq_false_iff.2 hzero
    refine ⟨x, ?_, beq_self hfin⟩
    simp only [queryText, hfin, hzero, Bool.not_true, Bool.false_eq_true, if_false]
    exact read?_placesText hfin hzero

theorem queryText_chars (hfin : x.isFinite = true) :
    x.queryText ≠ [] ∧ ∀ c ∈ x.queryText, c.isDigit = true ∨ c = '.' ∨ c = '-' := by
  unfold queryText
  rw [if_neg (by simp [hfin])]
  split
  · refine ⟨by simp, fun c hc => .inl ?_⟩
    obtain rfl : c = '0' := by simpa using hc
    decide
  · obtain ⟨c, ds, hcons, hc, hds⟩ := Decimal.positional_chars (x.shortest .up)
    refine ⟨by simp [placesText, hcons], ?_⟩
    intro c' hc'
    simp only [placesText, hcons, List.mem_append, List.mem_cons] at hc'
    obtain hc' | rfl | hc' := hc'
    · right; right
      unfold signText at hc'
      split at hc' <;> simp_all
    · exact .inl hc
    · obtain h | h := hds c' hc'
      · exact .inl h
      · exact .inr (.inl h)

end Double

end Numeric

end BoolQuery
