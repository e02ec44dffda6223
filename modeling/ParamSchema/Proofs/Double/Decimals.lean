import ParamSchema.Double.Decimal
import ParamSchema.Proofs.Double.Rounding

/-!
Doubles and decimals. The double nearest to a decimal depends on its rational value alone
(`Double.ofDecimal_congr`), a decimal that is a double is that double (`Double.ofDecimal_exact`),
and the decimal that is printed for a double is read back as the double
(`Double.ofDecimal_shortestDecimal`).
-/

namespace ParamSchema.Double

/-! ### Decimal logarithms -/

theorem digitCount_eq (n : Nat) : digitCount n = Nat.log 10 n + 1 := by
  induction n using Nat.strongRecOn with
  | ind n ih =>
    rw [digitCount]
    by_cases small : n < 10
    · rw [Nat.toDigits_of_lt_base small, Nat.log_of_lt small, List.length_singleton]
    · have rest := ih (n / 10) (by omega)
      rw [digitCount] at rest
      rw [Nat.toDigits_of_base_le (by decide) (by omega), List.length_append, rest,
        List.length_singleton, Nat.log_of_one_lt_of_le (by decide) (not_lt.mp small)]

/-- The place of the first digit of a decimal. -/
theorem digitCount_add {digits : Nat} (h : 0 < digits) (exponent : Int) :
    (digitCount digits : Int) + exponent = Int.log 10 ((digits : ℚ) * 10 ^ exponent) + 1 := by
  have low : ((10 : ℚ) ^ Nat.log 10 digits) ≤ digits := by
    exact_mod_cast Nat.pow_log_le_self 10 h.ne'
  have high : (digits : ℚ) < 10 ^ (Nat.log 10 digits + 1) := by
    exact_mod_cast Nat.lt_pow_succ_log_self (by decide) digits
  have log : Int.log 10 ((digits : ℚ) * 10 ^ exponent) = (Nat.log 10 digits : Int) + exponent := by
    apply log_eq (by decide)
    · rw [Nat.cast_ofNat, zpow_add₀ (by norm_num), zpow_natCast]
      gcongr
    · rw [Nat.cast_ofNat, add_right_comm, zpow_add₀ (by norm_num), ← Nat.cast_succ, zpow_natCast]
      gcongr
  rw [log, digitCount_eq]
  push_cast
  ring

/-! ### The double nearest to a decimal -/

theorem ofDecimal_eq (s : Bool) {digits num den : Nat} {exponent : Int} (h : 0 < digits)
    (hd : 0 < den) (same : (num : ℚ) / den = digits * 10 ^ exponent) :
    ofDecimal s digits exponent =
      if 310 ≤ Int.log 10 ((num : ℚ) / den) + 1 then .infinity s
      else if Int.log 10 ((num : ℚ) / den) + 1 ≤ -324 then zero s
      else ofRatio s num den := by
  have ratio : (if 0 ≤ exponent then ofRatio s (digits * Nat.pow 10 exponent.toNat) 1
      else ofRatio s digits (Nat.pow 10 (-exponent).toNat)) = ofRatio s num den := by
    split
    case isTrue nonneg =>
      obtain ⟨k, rfl⟩ := Int.eq_ofNat_of_zero_le nonneg
      apply ofRatio_congr s Nat.one_pos hd
      rw [same]
      simp
    case isFalse negative =>
      obtain ⟨k, rfl⟩ := Int.exists_eq_neg_ofNat (not_le.mp negative).le
      apply ofRatio_congr s (Nat.pow_pos (by decide)) hd
      rw [same]
      simp [zpow_neg, div_eq_mul_inv]
  simp only [ofDecimal, if_neg h.ne', digitCount_add h, same, ratio]

theorem ofDecimal_zero (s : Bool) (exponent : Int) : ofDecimal s 0 exponent = zero s := rfl

theorem ofDecimal_congr (s : Bool) {digits digits' : Nat} {exponent exponent' : Int}
    (same : (digits : ℚ) * 10 ^ exponent = digits' * 10 ^ exponent') :
    ofDecimal s digits exponent = ofDecimal s digits' exponent' := by
  have power : (10 : ℚ) ^ exponent ≠ 0 := by positivity
  have power' : (10 : ℚ) ^ exponent' ≠ 0 := by positivity
  rcases Nat.eq_zero_or_pos digits with rfl | h
  · have : digits' = 0 := by simpa [power'] using same.symm
    rw [this, ofDecimal_zero, ofDecimal_zero]
  · have h' : 0 < digits' := by
      rw [Nat.pos_iff_ne_zero]
      rintro rfl
      have : digits = 0 := by simpa [power] using same
      omega
    have ratio := Rat.num_div_den ((digits : ℚ) * 10 ^ exponent)
    have nonneg : 0 ≤ ((digits : ℚ) * 10 ^ exponent).num := Rat.num_nonneg.mpr (by positivity)
    obtain ⟨num, eq⟩ := Int.eq_ofNat_of_zero_le nonneg
    rw [eq, Int.cast_natCast] at ratio
    rw [ofDecimal_eq s h (Rat.den_pos _) ratio,
      ofDecimal_eq s h' (Rat.den_pos _) (ratio.trans same)]

theorem neg_ofDecimal (s : Bool) (digits : Nat) (exponent : Int) :
    neg (ofDecimal s digits exponent) = ofDecimal (!s) digits exponent := by
  simp only [ofDecimal, apply_ite neg, neg_ofRatio]
  rfl

theorem ten_pow_le : (10 : ℚ) ^ (-324 : Int) ≤ 2 ^ (-1074 : Int) := by
  have powers : 2 ^ 1074 ≤ 10 ^ 324 := by decide +kernel
  rw [zpow_neg, zpow_neg]
  apply inv_anti₀ (by positivity)
  exact_mod_cast powers

theorem two_pow_le : (2 : ℚ) ^ (1024 : Int) ≤ 10 ^ (309 : Int) := by
  have powers : 2 ^ 1024 ≤ 10 ^ 309 := by decide +kernel
  exact_mod_cast powers

/-- A positive double has fewer than 310 digits before the point and at most 323 zeros behind it. -/
theorem log_bounds {m : Nat} {e : Int} (h : Canonical m e) (positive : 0 < m) :
    -324 ≤ Int.log 10 ((m : ℚ) * 2 ^ e) ∧ Int.log 10 ((m : ℚ) * 2 ^ e) < 309 := by
  have full := mantissa_lt h
  obtain ⟨-, least, greatest, -⟩ := h
  have size : (0 : ℚ) < (m : ℚ) * 2 ^ e := by positivity
  have one : (1 : ℚ) ≤ m := by exact_mod_cast positive
  constructor
  · rw [← Int.zpow_le_iff_le_log (by decide) size, Nat.cast_ofNat]
    calc (10 : ℚ) ^ (-324 : Int) ≤ 2 ^ (-1074 : Int) := ten_pow_le
      _ ≤ 2 ^ e := zpow_le_zpow_right₀ (by norm_num) least
      _ ≤ m * 2 ^ e := le_mul_of_one_le_left (by positivity) one
  · rw [← Int.lt_zpow_iff_log_lt (by decide) size, Nat.cast_ofNat]
    calc (m : ℚ) * 2 ^ e < 2 ^ (53 : Int) * 2 ^ e := by gcongr
      _ = 2 ^ (53 + e) := (zpow_add₀ (by norm_num) _ _).symm
      _ ≤ 2 ^ (1024 : Int) := zpow_le_zpow_right₀ (by norm_num) (by omega)
      _ ≤ 10 ^ (309 : Int) := two_pow_le

theorem ofDecimal_exact (s : Bool) {digits m : Nat} {exponent e : Int} (canonical : Canonical m e)
    (same : (digits : ℚ) * 10 ^ exponent = m * 2 ^ e) :
    ofDecimal s digits exponent = .finite s m e canonical := by
  rcases Nat.eq_zero_or_pos m with rfl | positive
  · have power : (10 : ℚ) ^ exponent ≠ 0 := by positivity
    have none : digits = 0 := by simpa [power] using same
    have least : e = -1074 := canonical.2.2.2.resolve_left (by decide)
    subst none least
    rfl
  · have filled : 0 < digits := by
      rw [Nat.pos_iff_ne_zero]
      rintro rfl
      rw [Nat.cast_zero, zero_mul] at same
      exact absurd same (by positivity : (m : ℚ) * 2 ^ e ≠ 0).symm
    obtain ⟨num, den, hd, ratio, -⟩ := exists_ofScaled m e
    obtain ⟨low, high⟩ := log_bounds canonical positive
    rw [ofDecimal_eq s filled hd (ratio.trans same.symm), ratio, if_neg (by omega),
      if_neg (by omega), ofRatio_exact s hd canonical ratio]

/-! ### The decimal of a double -/

theorem ofScaled_exact (s : Bool) {m : Nat} {e : Int} (canonical : Canonical m e) :
    ofScaled s m e = .finite s m e canonical := by
  obtain ⟨num, den, positive, ratio, eq⟩ := exists_ofScaled m e
  rw [eq]
  exact ofRatio_exact s positive canonical ratio

theorem exactDecimal_eq (m : Nat) (e : Int) :
    ((exactDecimal m e).digits : ℚ) * 10 ^ (exactDecimal m e).exponent = m * 2 ^ e := by
  rw [exactDecimal]
  split
  case isTrue nonneg =>
    obtain ⟨k, rfl⟩ := Int.eq_ofNat_of_zero_le nonneg
    simp
  case isFalse negative =>
    obtain ⟨k, rfl⟩ := Int.exists_eq_neg_ofNat (not_le.mp negative).le
    have split : (10 : ℚ) ^ k = 5 ^ k * 2 ^ k := by rw [← mul_pow]; norm_num
    simp only [neg_neg, Int.toNat_natCast, Nat.pow_eq, zpow_neg, zpow_natCast, split]
    push_cast
    field_simp

/-- Of the candidates for a decimal only one that reads back is taken. -/
theorem candidate_reads {best low : Nat} {place : Int} {self : Double} {d : Decimal}
    (h : (if ofDecimal false best place == self then some (Decimal.mk best place)
      else if ofDecimal false low place == self then some ⟨low, place⟩
      else if ofDecimal false (low + 1) place == self then some ⟨low + 1, place⟩
      else none) = some d) : ofDecimal false d.digits d.exponent = self := by
  split at h
  case isTrue reads => exact Option.some.inj h ▸ eq_of_beq reads
  case isFalse =>
    split at h
    case isTrue reads => exact Option.some.inj h ▸ eq_of_beq reads
    case isFalse =>
      split at h
      case isTrue reads => exact Option.some.inj h ▸ eq_of_beq reads
      case isFalse => cases h

theorem endingAt?_reads {m : Nat} {e place : Int} {d : Decimal} (h : endingAt? m e place = some d) :
    ofDecimal false d.digits d.exponent = ofScaled false m e :=
  candidate_reads h

/-- The decimal of a double is read back as the double. -/
theorem ofDecimal_shortestDecimal (s : Bool) {m : Nat} {e : Int} (canonical : Canonical m e) :
    ofDecimal s (shortestDecimal m e).digits (shortestDecimal m e).exponent =
      .finite s m e canonical := by
  have unsigned : ofDecimal false (shortestDecimal m e).digits (shortestDecimal m e).exponent =
      .finite false m e canonical := by
    rw [shortestDecimal]
    cases found : (List.range 17).findSome? fun i => withDigits? m e (i + 1) with
    | none => exact ofDecimal_exact false canonical (exactDecimal_eq m e)
    | some d =>
      obtain ⟨i, -, reads⟩ := List.exists_of_findSome?_eq_some found
      rw [Option.getD_some, endingAt?_reads reads, ofScaled_exact false canonical]
  cases s with
  | false => exact unsigned
  | true => rw [← Bool.not_false, ← neg_ofDecimal, unsigned]; rfl

end ParamSchema.Double
