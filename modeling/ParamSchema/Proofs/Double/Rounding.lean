import Mathlib.Algebra.Order.Field.Power
import Mathlib.Data.Int.Log
import Mathlib.Data.Rat.Floor
import Mathlib.Tactic.FieldSimp
import Mathlib.Tactic.Linarith
import Mathlib.Tactic.NormNum
import Mathlib.Tactic.Positivity
import Mathlib.Tactic.Ring
import ParamSchema.Double.Arithmetic

/-!
Rounding as a function of rational numbers. The double nearest to a fraction depends on the ratio
alone (`Double.ofRatio_congr`), and a ratio that is a double already is that double
(`Double.ofRatio_exact`).
-/

namespace ParamSchema.Double

/-! ### Fractions -/

theorem scale_pos {den : Nat} (num : Nat) (h : 0 < den) (e : Int) : 0 < (scale num den e).2 := by
  rw [scale]
  split
  · exact Nat.mul_pos h (Nat.pow_pos (by decide))
  · exact h

theorem scale_ratio {den : Nat} (num : Nat) (h : 0 < den) (e : Int) :
    ((scale num den e).1 : ℚ) / (scale num den e).2 = num / den / 2 ^ e := by
  have positive : (den : ℚ) ≠ 0 := by exact_mod_cast h.ne'
  rw [scale]
  split
  case isTrue nonneg =>
    obtain ⟨k, rfl⟩ := Int.eq_ofNat_of_zero_le nonneg
    simp only [Int.toNat_natCast, Nat.pow_eq]
    push_cast
    rw [zpow_natCast, div_div]
  case isFalse negative =>
    obtain ⟨k, rfl⟩ := Int.exists_eq_neg_ofNat (not_le.mp negative).le
    simp only [neg_neg, Int.toNat_natCast, Nat.pow_eq]
    push_cast
    rw [zpow_neg, zpow_natCast]
    field_simp

theorem roundDiv_mul (num den : Nat) {k : Nat} (h : 0 < k) :
    roundDiv (num * k) (den * k) = roundDiv num den := by
  have below : 2 * (num % den * k) < den * k ↔ 2 * (num % den) < den := by
    rw [← mul_assoc, Nat.mul_lt_mul_right h]
  have above : den * k < 2 * (num % den * k) ↔ den < 2 * (num % den) := by
    rw [← mul_assoc, Nat.mul_lt_mul_right h]
  simp only [roundDiv, Nat.mul_div_mul_right _ _ h, Nat.mul_mod_mul_right, below, above]

theorem roundDiv_exact (n : Nat) {den : Nat} (h : 0 < den) : roundDiv (n * den) den = n := by
  simp [roundDiv, Nat.mul_div_cancel _ h, h]

/-- Rounding depends on the ratio alone. -/
theorem roundDiv_congr {num den num' den' : Nat} (h : 0 < den) (h' : 0 < den')
    (same : (num : ℚ) / den = num' / den') : roundDiv num den = roundDiv num' den' := by
  have cross : num * den' = num' * den := by
    rw [div_eq_div_iff (by exact_mod_cast h.ne') (by exact_mod_cast h'.ne')] at same
    exact_mod_cast same
  rw [← roundDiv_mul num den h', ← roundDiv_mul num' den' h, cross, mul_comm den den']

/-! ### Binary logarithms -/

theorem log_eq {b : Nat} (base : 1 < b) {r : ℚ} {k : Int} (low : (b : ℚ) ^ k ≤ r)
    (high : r < (b : ℚ) ^ (k + 1)) : Int.log b r = k := by
  have positive : 0 < r := lt_of_lt_of_le (by positivity) low
  have le := (Int.zpow_le_iff_le_log base positive).mp low
  have lt := (Int.lt_zpow_iff_log_lt base positive).mp high
  omega

/-- The quotient of the leading powers is off by less than one power on either side. -/
theorem ratio_bounds {num den : Nat} (hn : 0 < num) (hd : 0 < den) :
    (2 : ℚ) ^ ((num.log2 : Int) - den.log2 - 1) ≤ num / den ∧
      (num : ℚ) / den < 2 ^ ((num.log2 : Int) - den.log2 + 1) := by
  have nlow : ((2 : ℚ) ^ num.log2) ≤ num := by exact_mod_cast Nat.log2_self_le hn.ne'
  have nhigh : (num : ℚ) < 2 ^ (num.log2 + 1) := by exact_mod_cast Nat.lt_log2_self
  have dlow : ((2 : ℚ) ^ den.log2) ≤ den := by exact_mod_cast Nat.log2_self_le hd.ne'
  have dhigh : (den : ℚ) < 2 ^ (den.log2 + 1) := by exact_mod_cast Nat.lt_log2_self
  have dpos : (0 : ℚ) < den := by exact_mod_cast hd
  constructor
  · rw [le_div_iff₀ dpos]
    calc (2 : ℚ) ^ ((num.log2 : Int) - den.log2 - 1) * den
        ≤ 2 ^ ((num.log2 : Int) - den.log2 - 1) * 2 ^ (den.log2 + 1) := by gcongr
      _ = 2 ^ num.log2 := by
          rw [← zpow_natCast, ← zpow_natCast, ← zpow_add₀ (by norm_num)]
          congr 1
          push_cast
          ring
      _ ≤ num := nlow
  · rw [div_lt_iff₀ dpos]
    calc (num : ℚ) < 2 ^ (num.log2 + 1) := nhigh
      _ = 2 ^ ((num.log2 : Int) - den.log2 + 1) * 2 ^ den.log2 := by
          rw [← zpow_natCast, ← zpow_natCast, ← zpow_add₀ (by norm_num)]
          congr 1
          push_cast
          ring
      _ ≤ 2 ^ ((num.log2 : Int) - den.log2 + 1) * den := by gcongr

theorem scale_reaches_iff (num : Nat) {den : Nat} (h : 0 < den) (e : Int) :
    (scale num den e).2 ≤ (scale num den e).1 ↔ (2 : ℚ) ^ e ≤ num / den := by
  have power : (0 : ℚ) < 2 ^ e := by positivity
  have positive : (0 : ℚ) < (scale num den e).2 := by exact_mod_cast scale_pos num h e
  rw [← one_le_div₀ power, ← scale_ratio num h e, one_le_div₀ positive, Nat.cast_le]

theorem floorLog_eq {num den : Nat} (hn : 0 < num) (hd : 0 < den) :
    floorLog num den = Int.log 2 ((num : ℚ) / den) := by
  obtain ⟨low, high⟩ := ratio_bounds hn hd
  have reached := scale_reaches_iff num hd ((num.log2 : Int) - den.log2)
  rw [floorLog]
  generalize (num.log2 : Int) - den.log2 = k at low high reached ⊢
  show (if (scale num den k).2 ≤ (scale num den k).1 then k else k - 1) = _
  split
  case isTrue le => exact (log_eq (by decide) (reached.mp le) high).symm
  case isFalse lt =>
    refine (log_eq (by decide) low ?_).symm
    rw [sub_add_cancel]
    exact lt_of_not_ge fun le => lt (reached.mpr le)

/-! ### The nearest double -/

theorem ofRatio_congr (s : Bool) {num den num' den' : Nat} (h : 0 < den) (h' : 0 < den')
    (same : (num : ℚ) / den = num' / den') : ofRatio s num den = ofRatio s num' den' := by
  have dpos : (0 : ℚ) < den := by exact_mod_cast h
  have dpos' : (0 : ℚ) < den' := by exact_mod_cast h'
  by_cases empty : num = 0
  · have empty' : num' = 0 := by
      rw [empty, Nat.cast_zero, zero_div, eq_comm, div_eq_zero_iff] at same
      exact_mod_cast same.resolve_right dpos'.ne'
    rw [ofRatio, ofRatio, if_pos empty, if_pos empty']
  · have filled : num' ≠ 0 := by
      rintro rfl
      rw [Nat.cast_zero, zero_div, div_eq_zero_iff] at same
      exact empty (by exact_mod_cast same.resolve_right dpos.ne')
    have logs : floorLog num den = floorLog num' den' := by
      rw [floorLog_eq (Nat.pos_of_ne_zero empty) h, floorLog_eq (Nat.pos_of_ne_zero filled) h',
        same]
    have mantissas (e : Int) : roundDiv (scale num den e).1 (scale num den e).2 =
        roundDiv (scale num' den' e).1 (scale num' den' e).2 := by
      apply roundDiv_congr (scale_pos num h e) (scale_pos num' h' e)
      rw [scale_ratio num h e, scale_ratio num' h' e, same]
    rw [ofRatio, ofRatio, if_neg empty, if_neg filled, logs]
    simp only [mantissas]

theorem mantissa_lt {m : Nat} {e : Int} (h : Canonical m e) : (m : ℚ) < 2 ^ (53 : Int) := by
  have small := h.1
  rw [fullMantissa] at small
  norm_num
  exact_mod_cast small

/-- The exponent at which a double is rounded is its own. -/
theorem exponent_of_canonical {m : Nat} {e : Int} (h : Canonical m e) (positive : 0 < m) :
    max (-1074) (Int.log 2 ((m : ℚ) * 2 ^ e) - 52) = e := by
  have small := mantissa_lt h
  obtain ⟨-, least, -, full | rfl⟩ := h
  · have log : Int.log 2 ((m : ℚ) * 2 ^ e) = 52 + e := by
      refine log_eq (by decide) ?_ ?_
      · have : ((2 : ℚ) ^ (52 : Int)) ≤ m := by
          rw [fullMantissa] at full
          norm_num
          exact_mod_cast full
        push_cast
        rw [zpow_add₀ (by norm_num)]
        gcongr
      · push_cast
        rw [show (52 : Int) + e + 1 = 53 + e by ring, zpow_add₀ (by norm_num)]
        gcongr
    rw [log]
    omega
  · have log : Int.log 2 ((m : ℚ) * 2 ^ (-1074 : Int)) < -1021 := by
      apply (Int.lt_zpow_iff_log_lt (by decide) (by positivity)).mp
      rw [Nat.cast_ofNat, show (-1021 : Int) = 53 + -1074 by ring, zpow_add₀ (by norm_num)]
      gcongr
    omega

/-- A ratio that is a double is rounded to that double. -/
theorem ofRatio_exact (s : Bool) {num den m : Nat} {e : Int} (h : 0 < den)
    (canonical : Canonical m e) (same : (num : ℚ) / den = m * 2 ^ e) :
    ofRatio s num den = .finite s m e canonical := by
  have dpos : (0 : ℚ) < den := by exact_mod_cast h
  have power : (0 : ℚ) < 2 ^ e := by positivity
  by_cases empty : m = 0
  · subst empty
    have least : e = -1074 := canonical.2.2.2.resolve_left (by decide)
    subst least
    rw [Nat.cast_zero, zero_mul, div_eq_zero_iff, or_iff_left dpos.ne', Nat.cast_eq_zero] at same
    rw [ofRatio, if_pos same]
    rfl
  · have filled : num ≠ 0 := by
      rintro rfl
      rw [Nat.cast_zero, zero_div, eq_comm, mul_eq_zero, or_iff_left power.ne'] at same
      exact empty (by exact_mod_cast same)
    have exponent : max (-1074) (floorLog num den - 52) = e := by
      rw [floorLog_eq (Nat.pos_of_ne_zero filled) h, same]
      exact exponent_of_canonical canonical (Nat.pos_of_ne_zero empty)
    have mantissa : roundDiv (scale num den e).1 (scale num den e).2 = m := by
      rw [← roundDiv_exact m Nat.one_pos]
      apply roundDiv_congr (scale_pos num h e) Nat.one_pos
      rw [scale_ratio num h e, same, mul_div_cancel_right₀ _ power.ne']
      simp
    have small : m ≠ 2 * fullMantissa := canonical.1.ne
    rw [ofRatio, if_neg filled]
    simp only [exponent, mantissa, if_neg small, dif_pos canonical]

theorem neg_ofRatio (s : Bool) (num den : Nat) :
    neg (ofRatio s num den) = ofRatio (!s) num den := by
  simp only [ofRatio]
  split
  · rfl
  · rw [apply_dite neg]
    rfl

/-- A ratio is rounded to a finite double or beyond all of them. -/
theorem ofRatio_cases (s : Bool) (num den : Nat) :
    (ofRatio s num den).isFinite = true ∨ ofRatio s num den = .infinity s := by
  have rounded {m : Nat} {e : Int} {x : Double}
      (h : x = if canonical : Canonical m e then .finite s m e canonical else .infinity s) :
      x.isFinite = true ∨ x = .infinity s := by
    split_ifs at h
    · exact .inl (h ▸ rfl)
    · exact .inr h
  by_cases none : num = 0
  · rw [ofRatio, if_pos none]
    exact .inl rfl
  · rw [ofRatio, if_neg none]
    exact rounded rfl

/-- A number of units is rounded as a ratio. -/
theorem exists_ofScaled (n : Nat) (e : Int) :
    ∃ num den : Nat, 0 < den ∧ (num : ℚ) / den = n * 2 ^ e ∧
      ∀ s, ofScaled s n e = ofRatio s num den := by
  by_cases nonneg : 0 ≤ e
  · obtain ⟨k, rfl⟩ := Int.eq_ofNat_of_zero_le nonneg
    refine ⟨n * 2 ^ k, 1, Nat.one_pos, by simp, fun s => ?_⟩
    rw [ofScaled, if_pos nonneg]
    rfl
  · obtain ⟨k, rfl⟩ := Int.exists_eq_neg_ofNat (not_le.mp nonneg).le
    refine ⟨n, 2 ^ k, Nat.two_pow_pos k, by simp [zpow_neg, div_eq_mul_inv], fun s => ?_⟩
    rw [ofScaled, if_neg nonneg, neg_neg]
    rfl

end ParamSchema.Double
