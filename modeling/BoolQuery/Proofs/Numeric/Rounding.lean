import BoolQuery.Numeric.Shortest
import Mathlib.Algebra.Order.Field.Rat
import Mathlib.Algebra.Order.Field.Power
import Mathlib.Tactic.FieldSimp
import Mathlib.Tactic.Linarith
import Mathlib.Tactic.NormNum
import Mathlib.Tactic.Ring

/-! Rounding leaves alone what needs none: the rank found for the exact decimal of a finite
number is the rank of that number. Fractions are compared as rational numbers here. -/

namespace BoolQuery.Numeric

theorem binade_eq : binade = 4503599627370496 := rfl

theorem infiniteRank_eq : Double.infiniteRank = 9218868437227405312 := rfl

namespace Double

/-- A power is a fraction of powers with natural exponents, one of them zero. -/
theorem zpow_eq_div {b : ℚ} (hb : 0 < b) (q : Int) : b ^ q = b ^ q.toNat / b ^ (-q).toNat := by
  rw [eq_div_iff (by positivity), ← zpow_natCast, ← zpow_natCast, ← zpow_add₀ hb.ne']
  congr 1
  omega

theorem lt_of_two_zpow_lt {a b : Int} (h : (2 : ℚ) ^ a < 2 ^ b) : a < b :=
  (zpow_lt_zpow_iff_right₀ (by norm_num)).1 h

theorem log2_spec {n : Nat} (h : 0 < n) :
    (2 : ℚ) ^ (Nat.log2 n : Int) ≤ n ∧ (n : ℚ) < 2 ^ ((Nat.log2 n : Int) + 1) := by
  have hne : n ≠ 0 := Nat.ne_of_gt h
  constructor
  · rw [zpow_natCast]
    exact_mod_cast Nat.log2_self_le hne
  · rw [show (Nat.log2 n : Int) + 1 = ((Nat.log2 n + 1 : Nat) : Int) by push_cast; rfl,
      zpow_natCast]
    exact_mod_cast Nat.lt_log2_self

variable {num den : Nat}

/-- The test of `floorLog2` compares the fraction with the guessed power. -/
theorem scaled_lt_iff (hd : 0 < den) (q : Int) :
    num * Nat.pow 2 (-q).toNat < den * Nat.pow 2 q.toNat ↔ (num : ℚ) / den < 2 ^ q := by
  have hd' : (0 : ℚ) < den := by exact_mod_cast hd
  rw [zpow_eq_div two_pos, div_lt_div_iff₀ hd' (by positivity), mul_comm (2 ^ q.toNat : ℚ)]
  exact_mod_cast Iff.rfl

theorem floorLog2_spec (hn : 0 < num) (hd : 0 < den) :
    (2 : ℚ) ^ floorLog2 num den ≤ num / den ∧ (num / den : ℚ) < 2 ^ (floorLog2 num den + 1) := by
  obtain ⟨hnlow, hnhigh⟩ := log2_spec hn
  obtain ⟨hdlow, hdhigh⟩ := log2_spec hd
  have hd' : (0 : ℚ) < den := by exact_mod_cast hd
  have htwo : (2 : ℚ) ≠ 0 := by norm_num
  have hlow : (2 : ℚ) ^ ((Nat.log2 num : Int) - Nat.log2 den - 1) ≤ num / den := by
    rw [sub_sub, zpow_sub₀ htwo]
    exact div_le_div₀ (by positivity) hnlow hd' hdhigh.le
  have hhigh : (num / den : ℚ) < 2 ^ ((Nat.log2 num : Int) - Nat.log2 den + 1) := by
    rw [sub_add_eq_add_sub, zpow_sub₀ htwo]
    exact div_lt_div₀ hnhigh hdlow (by positivity) (by positivity)
  unfold floorLog2
  simp only
  split
  · rename_i h
    rw [scaled_lt_iff hd] at h
    exact ⟨hlow, by rwa [sub_add_cancel]⟩
  · rename_i h
    rw [scaled_lt_iff hd, not_lt] at h
    exact ⟨h, hhigh⟩

/-- The power of two at or below a fraction depends on its value alone. -/
theorem floorLog2_mul {c : Nat} (hn : 0 < num) (hd : 0 < den) (hc : 0 < c) :
    floorLog2 (num * c) (den * c) = floorLog2 num den := by
  obtain ⟨hlow, hhigh⟩ := floorLog2_spec hn hd
  obtain ⟨hlow', hhigh'⟩ := floorLog2_spec (Nat.mul_pos hn hc) (Nat.mul_pos hd hc)
  have hc' : (c : ℚ) ≠ 0 := by exact_mod_cast hc.ne'
  rw [Nat.cast_mul, Nat.cast_mul, mul_div_mul_right _ _ hc'] at hlow' hhigh'
  have hle := lt_of_two_zpow_lt (hlow'.trans_lt hhigh)
  have hge := lt_of_two_zpow_lt (hlow.trans_lt hhigh')
  omega

theorem roundHalfEven_mul_mul {c : Nat} (hc : 0 < c) :
    roundHalfEven (num * c) (den * c) = roundHalfEven num den := by
  have hlt : 2 * (num % den * c) < den * c ↔ 2 * (num % den) < den := by
    rw [← mul_assoc]
    exact Nat.mul_lt_mul_right hc
  have heq : (2 * (num % den * c) == den * c) = (2 * (num % den) == den) := by
    rw [← mul_assoc, Bool.eq_iff_iff, beq_iff_eq, beq_iff_eq]
    exact Nat.mul_left_inj hc.ne'
  simp only [roundHalfEven, Nat.mul_div_mul_right _ _ hc, Nat.mul_mod_mul_right, hlt, heq]

/-- Equal fractions have the same rank. -/
theorem rankOfRatio_mul {c : Nat} (hn : 0 < num) (hd : 0 < den) (hc : 0 < c) :
    rankOfRatio (num * c) (den * c) = rankOfRatio num den := by
  unfold rankOfRatio
  simp only [floorLog2_mul hn hd hc, Nat.mul_right_comm _ c, roundHalfEven_mul_mul hc]

theorem roundHalfEven_mul (m : Nat) (hd : 0 < den) : roundHalfEven (m * den) den = m := by
  simp [roundHalfEven, Nat.mul_div_cancel m hd, hd]

/-- The significands and powers that finite numbers are made of. -/
structure IsScaled (m : Nat) (p : Int) : Prop where
  pos : 0 < m
  lt : m < 2 ^ 53
  power_ge : -1074 ≤ p
  full : p = -1074 ∨ 2 ^ 52 ≤ m

/-- A fraction that is a number with 53 significant bits is not rounded. -/
theorem rankOfRatio_of_eq {m : Nat} {p : Int} (h : IsScaled m p) (hd : 0 < den)
    (heq : (num / den : ℚ) = m * 2 ^ p) :
    rankOfRatio num den = min ((p + 1074).toNat * binade + m) infiniteRank := by
  have hd' : (0 : ℚ) < den := by exact_mod_cast hd
  have hm : (0 : ℚ) < m := by exact_mod_cast h.pos
  have hn : 0 < num := by
    refine Nat.pos_of_ne_zero fun h0 => ?_
    have hpos : (0 : ℚ) < m * 2 ^ p := by positivity
    rw [← heq, h0] at hpos
    simp at hpos
  obtain ⟨hlow, hhigh⟩ := floorLog2_spec hn hd
  rw [heq] at hlow hhigh
  have hle : floorLog2 num den < p + 53 := by
    refine lt_of_two_zpow_lt (hlow.trans_lt ?_)
    rw [add_comm p, zpow_add₀ (by norm_num)]
    have : (m : ℚ) < 2 ^ (53 : Int) := by exact_mod_cast h.lt
    exact mul_lt_mul_of_pos_right this (by positivity)
  have hge : 2 ^ 52 ≤ m → p + 52 < floorLog2 num den + 1 := fun hfull => by
    refine lt_of_two_zpow_lt (lt_of_le_of_lt ?_ hhigh)
    rw [add_comm p, zpow_add₀ (by norm_num)]
    have : (2 : ℚ) ^ (52 : Int) ≤ m := by exact_mod_cast hfull
    exact mul_le_mul_of_nonneg_right this (by positivity)
  have hq : max (floorLog2 num den - 52) (-1074) = p := by
    have := h.power_ge
    obtain hp | hfull := h.full
    · omega
    · have := hge hfull
      omega
  have hscaled : num * Nat.pow 2 (-p).toNat = m * (den * Nat.pow 2 p.toNat) := by
    rw [zpow_eq_div two_pos, ← mul_div_assoc, div_eq_div_iff hd'.ne' (by positivity)] at heq
    have : num * 2 ^ (-p).toNat = m * 2 ^ p.toNat * den := by exact_mod_cast heq
    rw [Nat.pow_eq, this, Nat.pow_eq]
    ring
  have hpos : 0 < den * Nat.pow 2 p.toNat := Nat.mul_pos hd (Nat.pow_pos (by decide))
  simp only [rankOfRatio, hq]
  rw [hscaled, roundHalfEven_mul m hpos]

variable {x : Double}

theorem isFinite_iff : x.isFinite = true ↔ x.magnitude < infiniteRank := by
  unfold isFinite
  exact decide_eq_true_iff

theorem isScaled_of_isFinite (hfin : x.isFinite = true) (hzero : x.isZero = false) :
    IsScaled x.significand x.power := by
  rw [isFinite_iff, infiniteRank_eq] at hfin
  simp only [isZero, beq_eq_false_iff_ne] at hzero
  unfold significand power
  by_cases hsub : x.magnitude / binade = 0
  · simp only [if_pos hsub]
    rw [binade_eq] at hsub
    constructor <;> omega
  · simp only [if_neg hsub]
    rw [binade_eq] at hsub ⊢
    constructor <;> omega

theorem power_lt (hfin : x.isFinite = true) : x.power < 972 := by
  rw [isFinite_iff, infiniteRank_eq] at hfin
  unfold power
  split <;> simp only [binade_eq] at * <;> omega

theorem magnitude_eq (x : Double) :
    (x.power + 1074).toNat * binade + x.significand = x.magnitude := by
  unfold significand power
  split <;> simp only [binade_eq] at * <;> omega

/-- The exact decimal is the number `significand * 2 ^ power`. -/
theorem exactDecimal_eq (x : Double) :
    (x.exactDecimal.digits : ℚ) * 10 ^ x.exactDecimal.exponent =
      x.significand * 2 ^ x.power := by
  unfold exactDecimal
  split
  · rename_i hp
    obtain ⟨k, hk⟩ := Int.eq_ofNat_of_zero_le hp
    simp [hk]
  · rename_i hp
    obtain ⟨k, hk⟩ := Int.eq_ofNat_of_zero_le (by omega : 0 ≤ -x.power)
    have hpow : x.power = -(k : Int) := by omega
    have hten : (10 : ℚ) ^ k = 2 ^ k * 5 ^ k := by rw [← mul_pow]; norm_num
    simp only [hpow, neg_neg, Int.toNat_natCast, Nat.pow_eq, zpow_neg, zpow_natCast]
    push_cast
    rw [hten]
    field_simp

theorem width_spec {d : Decimal} (h : 0 < d.digits) :
    (10 : ℚ) ^ ((d.width : Int) - 1) ≤ d.digits ∧ (d.digits : ℚ) < 10 ^ (d.width : Int) := by
  have hwidth (k : Nat) (hk : 0 < k) : d.width ≤ k ↔ d.digits < 10 ^ k :=
    Nat.length_toDigits_le_iff (by decide) hk
  have hpos : 0 < d.width := Nat.length_toDigits_pos
  constructor
  · obtain ⟨k, hk⟩ : ∃ k, d.width = k + 1 := ⟨d.width - 1, by omega⟩
    have hle : 10 ^ k ≤ d.digits := by
      by_cases h0 : k = 0
      · subst h0
        exact h
      · have := hwidth k (Nat.pos_of_ne_zero h0)
        omega
    rw [hk, Nat.cast_succ, add_sub_cancel_right, zpow_natCast]
    exact_mod_cast hle
  · rw [zpow_natCast]
    exact_mod_cast (hwidth d.width hpos).1 le_rfl

theorem two_pow_lt_ten_pow : (2 : ℚ) ^ (1025 : Int) < 10 ^ (310 : Int) := by
  calc
    (2 : ℚ) ^ (1025 : Int) = (2 ^ 205) ^ 5 := by rw [← pow_mul]; exact zpow_natCast 2 1025
    _ < (10 ^ 62) ^ 5 := pow_lt_pow_left₀ (by norm_num) (by positivity) (by decide)
    _ = 10 ^ (310 : Int) := by rw [← pow_mul]; exact (zpow_natCast 10 310).symm

theorem ten_zpow_lt_two_zpow : (10 : ℚ) ^ (-330 : Int) < 2 ^ (-1074 : Int) := by
  have h : (2 : ℚ) ^ (1074 : Int) < 10 ^ (330 : Int) := by
    calc
      (2 : ℚ) ^ (1074 : Int) = (2 ^ 179) ^ 6 := by rw [← pow_mul]; exact zpow_natCast 2 1074
      _ < (10 ^ 55) ^ 6 := pow_lt_pow_left₀ (by norm_num) (by positivity) (by decide)
      _ = 10 ^ (330 : Int) := by rw [← pow_mul]; exact (zpow_natCast 10 330).symm
  rw [zpow_neg, zpow_neg]
  exact inv_strictAnti₀ (by positivity) h

/-- A decimal in the range of the finite numbers has its point near zero. -/
theorem point_bounds {d : Decimal} {m : Nat} {p : Int} (h : IsScaled m p) (hp : p < 972)
    (hpos : 0 < d.digits) (heq : (d.digits : ℚ) * 10 ^ d.exponent = m * 2 ^ p) :
    d.point ≤ 310 ∧ -330 ≤ d.point := by
  obtain ⟨hlow, hhigh⟩ := width_spec hpos
  have hten : (10 : ℚ) ≠ 0 := by norm_num
  have hexp : (0 : ℚ) < 10 ^ d.exponent := by positivity
  constructor
  · have hm : (m : ℚ) < 2 ^ (53 : Int) := by exact_mod_cast h.lt
    have hlt : (10 : ℚ) ^ (d.point - 1) < 10 ^ (310 : Int) := by
      calc
        (10 : ℚ) ^ (d.point - 1) = 10 ^ ((d.width : Int) - 1) * 10 ^ d.exponent := by
          rw [← zpow_add₀ hten, Decimal.point]
          congr 1
          omega
        _ ≤ d.digits * 10 ^ d.exponent := mul_le_mul_of_nonneg_right hlow hexp.le
        _ = m * 2 ^ p := heq
        _ < 2 ^ (53 : Int) * 2 ^ p := mul_lt_mul_of_pos_right hm (by positivity)
        _ ≤ 2 ^ (53 : Int) * 2 ^ (972 : Int) :=
          mul_le_mul_of_nonneg_left (zpow_le_zpow_right₀ (by norm_num) hp.le) (by positivity)
        _ = 2 ^ (1025 : Int) := by rw [← zpow_add₀ (by norm_num)]; rfl
        _ < 10 ^ (310 : Int) := two_pow_lt_ten_pow
    have := (zpow_lt_zpow_iff_right₀ (by norm_num : (1 : ℚ) < 10)).1 hlt
    omega
  · have hm : (1 : ℚ) ≤ m := by exact_mod_cast h.pos
    have hlt : (10 : ℚ) ^ (-330 : Int) < 10 ^ d.point := by
      calc
        (10 : ℚ) ^ (-330 : Int) < 2 ^ (-1074 : Int) := ten_zpow_lt_two_zpow
        _ ≤ 2 ^ p := zpow_le_zpow_right₀ (by norm_num) h.power_ge
        _ ≤ m * 2 ^ p := le_mul_of_one_le_left (by positivity) hm
        _ = d.digits * 10 ^ d.exponent := heq.symm
        _ < 10 ^ (d.width : Int) * 10 ^ d.exponent := mul_lt_mul_of_pos_right hhigh hexp
        _ = 10 ^ d.point := by
          rw [← zpow_add₀ hten, Decimal.point, add_comm]
    have := (zpow_lt_zpow_iff_right₀ (by norm_num : (1 : ℚ) < 10)).1 hlt
    omega

/-- The exact decimal of a number other than zero reads back as the number. -/
theorem rankOfDecimal_exactDecimal (hfin : x.isFinite = true) (hzero : x.isZero = false) :
    rankOfDecimal x.exactDecimal = x.magnitude := by
  have hscaled := isScaled_of_isFinite hfin hzero
  have heq := exactDecimal_eq x
  have hpos : 0 < x.exactDecimal.digits := by
    refine Nat.pos_of_ne_zero fun h0 => ?_
    have hm : (0 : ℚ) < x.significand := by exact_mod_cast hscaled.pos
    have hval : (0 : ℚ) < x.significand * 2 ^ x.power := by positivity
    rw [← heq, h0] at hval
    simp at hval
  obtain ⟨hhigh, hlow⟩ := point_bounds hscaled (power_lt hfin) hpos heq
  have hden : 0 < Nat.pow 10 (-x.exactDecimal.exponent).toNat := Nat.pow_pos (by decide)
  have hratio : ((x.exactDecimal.digits * Nat.pow 10 x.exactDecimal.exponent.toNat : Nat) : ℚ) /
      (Nat.pow 10 (-x.exactDecimal.exponent).toNat : Nat) = x.significand * 2 ^ x.power := by
    rw [← heq, zpow_eq_div (by norm_num), Nat.pow_eq, Nat.pow_eq]
    push_cast
    ring
  rw [rankOfDecimal, if_neg (Nat.ne_of_gt hpos), if_neg (by omega), if_neg (by omega),
    rankOfRatio_of_eq hscaled hden hratio, magnitude_eq]
  exact Nat.min_eq_left (isFinite_iff.1 hfin).le

theorem rankOfDecimal_shorten (tie : Tie) {d : Decimal} (hd : rankOfDecimal d = x.magnitude)
    (dropped : Nat) : rankOfDecimal (shorten tie x d dropped) = x.magnitude := by
  induction dropped with
  | zero => exact hd
  | succ dropped ih =>
    rw [shorten]
    split
    · rename_i found hfound
      unfold neighbour? at hfound
      simp only at hfound
      split at hfound <;> cases hfound
      · rename_i hbelow habove
        split
        · exact eq_of_beq habove
        · exact eq_of_beq hbelow
      · rename_i hbelow _
        exact eq_of_beq hbelow
      · rename_i habove
        exact eq_of_beq habove
    · exact ih

/-- However many digits are given up, what is written still reads back as the number. -/
theorem rankOfDecimal_shortest (tie : Tie) (hfin : x.isFinite = true) (hzero : x.isZero = false) :
    rankOfDecimal (x.shortest tie) = x.magnitude := by
  rw [shortest, if_neg (by simp [hzero])]
  exact rankOfDecimal_shorten tie (rankOfDecimal_exactDecimal hfin hzero) _

end Double

end BoolQuery.Numeric
