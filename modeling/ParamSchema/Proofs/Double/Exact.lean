import ParamSchema.Double.Printed
import ParamSchema.Proofs.Double.Rounding

/-!
Exact arithmetic. An operation on doubles whose exact result is again a double gives that result,
and integers up to `2 ^ 53` are doubles. Hence sums, differences, products, exact quotients and
remainders of integers are exact as long as they stay in that range, and an integer is printed with
its decimal digits.
-/

namespace ParamSchema.Double

/-- A rational number with a sign in front of it. -/
def withSign (s : Bool) (r : ℚ) : ℚ := if s then -r else r

/-- The rational number that a finite double is. -/
def value? : Double → Option ℚ
  | .finite s m e _ => some (withSign s (m * 2 ^ e))
  | _ => none

/-- A rational number that is a double. -/
def Representable (r : ℚ) : Prop := ∃ m e, Canonical m e ∧ |r| = m * 2 ^ e

theorem withSign_mul (s s' : Bool) (a b : ℚ) :
    withSign s a * withSign s' b = withSign (s ^^ s') (a * b) := by
  cases s <;> cases s' <;> simp [withSign]

theorem withSign_div (s s' : Bool) (a b : ℚ) :
    withSign s a / withSign s' b = withSign (s ^^ s') (a / b) := by
  cases s <;> cases s' <;> simp [withSign, neg_div, div_neg]

theorem withSign_signed (s : Bool) (n : Nat) (r : ℚ) :
    ((signed s n : Int) : ℚ) * r = withSign s (n * r) := by
  cases s <;> simp [withSign, signed]

theorem withSign_abs (r : ℚ) : withSign (decide (r < 0)) |r| = r := by
  by_cases negative : r < 0
  · simp [withSign, negative, abs_of_neg negative]
  · simp [withSign, negative, abs_of_nonneg (not_lt.mp negative)]

theorem withSign_eq_zero {s : Bool} {r : ℚ} : withSign s r = 0 ↔ r = 0 := by
  cases s <;> simp [withSign]

theorem abs_withSign (s : Bool) (r : ℚ) : |withSign s r| = |r| := by
  cases s <;> simp [withSign]

theorem representable_withSign {s : Bool} {r : ℚ} :
    Representable (withSign s r) ↔ Representable r := by
  rw [Representable, Representable, abs_withSign]

theorem value?_eq_some {x : Double} {r : ℚ} :
    x.value? = some r ↔ ∃ s m e h, x = .finite s m e h ∧ r = withSign s (m * 2 ^ e) := by
  cases x with
  | nan => simp [value?]
  | infinity s => simp [value?]
  | finite s m e h =>
    constructor
    · intro eq
      exact ⟨s, m, e, h, rfl, (Option.some.inj eq).symm⟩
    · rintro ⟨_, _, _, _, eq, rfl⟩
      rw [eq]
      rfl

theorem isFinite_of_value? {x : Double} {r : ℚ} (h : x.value? = some r) : x.isFinite = true := by
  obtain ⟨s, m, e, canonical, rfl, -⟩ := value?_eq_some.mp h
  rfl

theorem isZero_iff {x : Double} {r : ℚ} (h : x.value? = some r) : x.isZero = true ↔ r = 0 := by
  obtain ⟨s, m, e, canonical, rfl, rfl⟩ := value?_eq_some.mp h
  have power : (2 : ℚ) ^ e ≠ 0 := by positivity
  simp [isZero, withSign_eq_zero, power]

theorem exists_value? {x : Double} (h : x.isFinite = true) : ∃ a, x.value? = some a := by
  cases x with
  | nan => cases h
  | infinity s => cases h
  | finite s m e canonical => exact ⟨_, rfl⟩

theorem representable_of_value? {x : Double} {a : ℚ} (h : x.value? = some a) : Representable a := by
  obtain ⟨s, m, e, canonical, rfl, rfl⟩ := value?_eq_some.mp h
  exact representable_withSign.mpr ⟨m, e, canonical, abs_of_nonneg (by positivity)⟩

/-- Doubles that are the same number differ at most in the sign of zero. -/
theorem eq_of_value? {x y : Double} {a : ℚ} (hx : x.value? = some a) (hy : y.value? = some a)
    (nonzero : a ≠ 0) : x = y := by
  obtain ⟨s, m, e, canonical, rfl, value⟩ := value?_eq_some.mp hx
  obtain ⟨s', m', e', canonical', rfl, value'⟩ := value?_eq_some.mp hy
  have size : (m : ℚ) * 2 ^ e = m' * 2 ^ e' := by
    have abs := congrArg abs (value.symm.trans value')
    rwa [abs_withSign, abs_withSign, abs_of_nonneg (by positivity),
      abs_of_nonneg (by positivity)] at abs
  have positive : 0 < (m' : ℚ) * 2 ^ e' := by
    refine lt_of_le_of_ne (by positivity) fun zero => nonzero ?_
    rw [value', ← zero, withSign_eq_zero]
  have sign : s = s' := by
    rw [size] at value
    have total := value.symm.trans value'
    cases s <;> cases s' <;> simp [withSign] at total ⊢ <;> linarith
  subst sign
  obtain ⟨num, den, denominator, ratio, rounds⟩ := exists_ofScaled m e
  rw [← ofRatio_exact s denominator canonical ratio,
    ofRatio_exact s denominator canonical' (ratio.trans size)]

/-! ### Results that are doubles -/

theorem value?_ofRatio (s : Bool) {num den : Nat} (h : 0 < den) {r : ℚ}
    (same : (num : ℚ) / den = r) (fits : Representable r) :
    (ofRatio s num den).value? = some (withSign s r) := by
  obtain ⟨m, e, canonical, form⟩ := fits
  have nonneg : 0 ≤ r := same ▸ by positivity
  rw [abs_of_nonneg nonneg] at form
  rw [ofRatio_exact s h canonical (same.trans form), value?, form]

theorem value?_ofScaled (s : Bool) {n : Nat} {e : Int} {r : ℚ} (same : (n : ℚ) * 2 ^ e = r)
    (fits : Representable r) : (ofScaled s n e).value? = some (withSign s r) := by
  obtain ⟨num, den, positive, ratio, eq⟩ := exists_ofScaled n e
  rw [eq]
  exact value?_ofRatio s positive (ratio.trans same) fits

theorem value?_zero (s : Bool) : (zero s).value? = some 0 := by
  cases s <;> simp [zero, value?, withSign]

theorem value?_neg {x : Double} {a : ℚ} (h : x.value? = some a) : (neg x).value? = some (-a) := by
  obtain ⟨s, m, e, canonical, rfl, rfl⟩ := value?_eq_some.mp h
  cases s <;> simp [neg, value?, withSign]

theorem inUnits_eq (m : Nat) {e unit : Int} (h : unit ≤ e) :
    (inUnits m e unit : ℚ) * 2 ^ unit = m * 2 ^ e := by
  obtain ⟨k, rfl⟩ : ∃ k : Nat, e = unit + k := ⟨(e - unit).toNat, by omega⟩
  rw [inUnits, add_sub_cancel_left, Int.toNat_natCast, Nat.pow_eq, zpow_add₀ (by norm_num),
    zpow_natCast]
  push_cast
  ring

theorem value?_add {x y : Double} {a b : ℚ} (hx : x.value? = some a) (hy : y.value? = some b)
    (fits : Representable (a + b)) : (x + y).value? = some (a + b) := by
  obtain ⟨s, m, e, canonical, rfl, rfl⟩ := value?_eq_some.mp hx
  obtain ⟨s', m', e', canonical', rfl, rfl⟩ := value?_eq_some.mp hy
  have power : (0 : ℚ) < 2 ^ min e e' := by positivity
  rw [← inUnits_eq m (min_le_left e e'), ← inUnits_eq m' (min_le_right e e'), ← withSign_signed,
    ← withSign_signed, ← add_mul] at fits ⊢
  show (add _ _).value? = _
  rw [add]
  generalize signed s (inUnits m e (min e e')) = i at fits ⊢
  generalize signed s' (inUnits m' e' (min e e')) = j at fits ⊢
  by_cases cancel : i + j = 0
  · have total : (i + j : ℚ) = 0 := by exact_mod_cast cancel
    simp only [if_pos cancel, total, zero_mul]
    exact value?_zero _
  · have size : (((i + j).natAbs : Nat) : ℚ) * 2 ^ min e e' = |(i + j : ℚ) * 2 ^ min e e'| := by
      rw [abs_mul, abs_of_pos power, Nat.cast_natAbs]
      push_cast
      rfl
    have sign : (i + j < 0) ↔ (i + j : ℚ) * 2 ^ min e e' < 0 := by
      rw [← not_le, ← not_le, mul_nonneg_iff_of_pos_right power]
      exact_mod_cast Iff.rfl
    have fits' : Representable |(i + j : ℚ) * 2 ^ min e e'| := by
      rwa [Representable, abs_abs]
    simp only [if_neg cancel, sign]
    rw [value?_ofScaled _ size fits', withSign_abs]

theorem value?_sub {x y : Double} {a b : ℚ} (hx : x.value? = some a) (hy : y.value? = some b)
    (fits : Representable (a - b)) : (x - y).value? = some (a - b) := by
  rw [sub_eq_add_neg] at fits ⊢
  exact value?_add hx (value?_neg hy) fits

theorem value?_mul {x y : Double} {a b : ℚ} (hx : x.value? = some a) (hy : y.value? = some b)
    (fits : Representable (a * b)) : (x * y).value? = some (a * b) := by
  obtain ⟨s, m, e, canonical, rfl, rfl⟩ := value?_eq_some.mp hx
  obtain ⟨s', m', e', canonical', rfl, rfl⟩ := value?_eq_some.mp hy
  rw [withSign_mul] at fits ⊢
  show (mul _ _).value? = _
  rw [mul]
  refine value?_ofScaled _ ?_ (representable_withSign.mp fits)
  rw [zpow_add₀ (by norm_num)]
  push_cast
  ring

theorem value?_div {x y : Double} {a b : ℚ} (hx : x.value? = some a) (hy : y.value? = some b)
    (divisor : b ≠ 0) (fits : Representable (a / b)) : (x / y).value? = some (a / b) := by
  obtain ⟨s, m, e, canonical, rfl, rfl⟩ := value?_eq_some.mp hx
  obtain ⟨s', m', e', canonical', rfl, rfl⟩ := value?_eq_some.mp hy
  have nonzero : m' ≠ 0 := by
    rintro rfl
    exact divisor (by simp [withSign_eq_zero])
  rw [withSign_div] at fits ⊢
  show (div _ _).value? = _
  rw [div, if_neg nonzero]
  show (ofRatio _ (scale m m' (e' - e)).1 (scale m m' (e' - e)).2).value? = _
  refine value?_ofRatio _ (scale_pos m (Nat.pos_of_ne_zero nonzero) _) ?_
    (representable_withSign.mp fits)
  rw [scale_ratio m (Nat.pos_of_ne_zero nonzero), zpow_sub₀ (by norm_num)]
  field_simp

theorem value?_zero_rem {x y : Double} {b : ℚ} (hx : x.value? = some 0) (hy : y.value? = some b)
    (divisor : b ≠ 0) : (x % y).value? = some 0 := by
  obtain ⟨s', m', e', canonical', rfl, rfl⟩ := value?_eq_some.mp hy
  have nonzero : m' ≠ 0 := by
    rintro rfl
    exact divisor (by simp [withSign_eq_zero])
  have none := (isZero_iff hx).mpr rfl
  obtain ⟨s, m, e, canonical, rfl, -⟩ := value?_eq_some.mp hx
  show (rem _ _).value? = _
  rw [rem, if_neg nonzero, if_pos (eq_of_beq none)]
  exact hx

/-! ### Integers -/

/-- The integers up to `2 ^ 53`, between which no integer is missing. -/
def exactBound : Nat := 0x20000000000000

theorem exists_canonical {n : Nat} (h : n ≤ exactBound) :
    ∃ m e, Canonical m e ∧ (n : ℚ) = m * 2 ^ e := by
  rw [exactBound] at h
  rcases Nat.eq_zero_or_pos n with rfl | positive
  · exact ⟨0, -1074, by decide, by simp⟩
  · by_cases top : n = 0x20000000000000
    · exact ⟨fullMantissa, 1, by decide, by rw [top, fullMantissa]; norm_num⟩
    · -- the mantissa is the number shifted until its first bit is the highest of 53
      have low := Nat.log2_self_le positive.ne'
      have high : n < 2 ^ (n.log2 + 1) := Nat.lt_log2_self
      have few : n.log2 < 53 := (Nat.log2_lt positive.ne').mpr (by omega)
      have split : 2 ^ n.log2 * 2 ^ (52 - n.log2) = 2 ^ 52 := by
        rw [← pow_add]
        congr 1
        omega
      have split' : 2 ^ (n.log2 + 1) * 2 ^ (52 - n.log2) = 2 ^ 53 := by
        rw [← pow_add]
        congr 1
        omega
      refine ⟨n * 2 ^ (52 - n.log2), (n.log2 : Int) - 52, ⟨?_, by omega, by omega, .inl ?_⟩, ?_⟩
      · calc n * 2 ^ (52 - n.log2) < 2 ^ (n.log2 + 1) * 2 ^ (52 - n.log2) := by gcongr
          _ = 2 * fullMantissa := by rw [split', fullMantissa]; norm_num
      · calc fullMantissa = 2 ^ n.log2 * 2 ^ (52 - n.log2) := by rw [split, fullMantissa]; norm_num
          _ ≤ n * 2 ^ (52 - n.log2) := by gcongr
      · obtain ⟨k, eq⟩ : ∃ k : Nat, n.log2 + k = 52 := ⟨52 - n.log2, by omega⟩
        rw [show 52 - n.log2 = k by omega, show (n.log2 : Int) - 52 = -(k : Int) by omega, zpow_neg,
          zpow_natCast]
        push_cast
        field_simp

theorem representable_int {i : Int} (h : i.natAbs ≤ exactBound) : Representable i := by
  obtain ⟨m, e, canonical, form⟩ := exists_canonical h
  refine ⟨m, e, canonical, ?_⟩
  rw [← form, Nat.cast_natAbs, Int.cast_abs]

/-- A double that is an integer has the integer in its units. -/
theorem exists_units {x : Double} {i : Int} (h : x.value? = some (i : ℚ)) :
    ∃ s m e c, x = .finite s m e c ∧ i = signed s i.natAbs ∧ (m : ℚ) * 2 ^ e = i.natAbs := by
  obtain ⟨s, m, e, canonical, rfl, form⟩ := value?_eq_some.mp h
  have size : (m : ℚ) * 2 ^ e = i.natAbs := by
    rw [Nat.cast_natAbs, Int.cast_abs, form, abs_withSign, abs_of_nonneg (by positivity)]
  refine ⟨s, m, e, canonical, rfl, ?_, size⟩
  have : (i : ℚ) = signed s i.natAbs := by
    rw [form, size, ← mul_one ((i.natAbs : Nat) : ℚ), ← withSign_signed, mul_one]
  exact_mod_cast this

/-- Remainders in a common unit are the remainder in that unit. -/
theorem mod_units {a b i j : Nat} {unit : Int} (ha : (a : ℚ) * 2 ^ unit = i)
    (hb : (b : ℚ) * 2 ^ unit = j) : ((a % b : Nat) : ℚ) * 2 ^ unit = (i % j : Nat) := by
  by_cases nonneg : 0 ≤ unit
  · obtain ⟨k, rfl⟩ := Int.eq_ofNat_of_zero_le nonneg
    rw [zpow_natCast] at ha hb ⊢
    have ha' : a * 2 ^ k = i := by exact_mod_cast ha
    have hb' : b * 2 ^ k = j := by exact_mod_cast hb
    rw [← ha', ← hb', Nat.mul_mod_mul_right]
    push_cast
    rfl
  · obtain ⟨k, rfl⟩ := Int.exists_eq_neg_ofNat (not_le.mp nonneg).le
    have power : (2 : ℚ) ^ k ≠ 0 := by positivity
    rw [zpow_neg, zpow_natCast, mul_inv_eq_iff_eq_mul₀ power] at ha hb ⊢
    have ha' : a = i * 2 ^ k := by exact_mod_cast ha
    have hb' : b = j * 2 ^ k := by exact_mod_cast hb
    rw [ha', hb', Nat.mul_mod_mul_right]
    push_cast
    rfl

theorem tmod_signed (s : Bool) (n : Nat) (j : Int) :
    (signed s n).tmod j = signed s (n % j.natAbs) := by
  have unsigned : (n : Int).tmod j = (n % j.natAbs : Nat) := by
    rcases j.natAbs_eq with eq | eq
    · rw [Int.ofNat_tmod, ← eq]
    · rw [Int.ofNat_tmod, ← Int.tmod_neg _ (j.natAbs : Int), ← eq]
  cases s with
  | false => exact unsigned
  | true =>
    show (-(n : Int)).tmod j = -((n % j.natAbs : Nat) : Int)
    rw [Int.neg_tmod, unsigned]

theorem value?_rem {x y : Double} {i j : Int} (hx : x.value? = some (i : ℚ))
    (hy : y.value? = some (j : ℚ)) (divisor : j ≠ 0) (small : i.natAbs ≤ exactBound) :
    (x % y).value? = some ((i.tmod j : Int) : ℚ) := by
  obtain ⟨s, m, e, canonical, rfl, sign, size⟩ := exists_units hx
  obtain ⟨s', m', e', canonical', rfl, -, size'⟩ := exists_units hy
  have nonzero : m' ≠ 0 := by
    rintro rfl
    rw [Nat.cast_zero, zero_mul, eq_comm, Nat.cast_eq_zero, Int.natAbs_eq_zero] at size'
    exact divisor size'
  have result : i.tmod j = signed s (i.natAbs % j.natAbs) := by
    conv_lhs => rw [sign]
    exact tmod_signed s _ j
  have units := mod_units ((inUnits_eq m (min_le_left e e')).trans size)
    ((inUnits_eq m' (min_le_right e e')).trans size')
  have fits : Representable ((i.natAbs % j.natAbs : Nat) : ℚ) :=
    representable_int ((Nat.mod_le _ _).trans small)
  show (rem _ _).value? = _
  rw [rem, if_neg nonzero]
  by_cases none : m = 0
  · subst none
    rw [Nat.cast_zero, zero_mul, eq_comm, Nat.cast_eq_zero, Int.natAbs_eq_zero] at size
    rw [if_pos rfl, hx, size, Int.zero_tmod]
  · rw [if_neg none, value?_ofScaled s units fits, result, ← mul_one ((_ : Nat) : ℚ),
      ← withSign_signed, mul_one]

/-- The integer that a double is. -/
theorem integer?_eq {m n : Nat} {e : Int} (h : (m : ℚ) * 2 ^ e = n) : integer? m e = some n := by
  rw [integer?]
  split
  case isTrue nonneg =>
    obtain ⟨k, rfl⟩ := Int.eq_ofNat_of_zero_le nonneg
    rw [zpow_natCast] at h
    rw [Int.toNat_natCast]
    exact congrArg some (by exact_mod_cast h)
  case isFalse negative =>
    obtain ⟨k, rfl⟩ := Int.exists_eq_neg_ofNat (not_le.mp negative).le
    have power : (2 : ℚ) ^ k ≠ 0 := by positivity
    rw [zpow_neg, zpow_natCast, mul_inv_eq_iff_eq_mul₀ power] at h
    have form : m = n * 2 ^ k := by exact_mod_cast h
    rw [neg_neg, Int.toNat_natCast, Nat.pow_eq, form, Nat.mul_mod_left, if_pos rfl,
      Nat.mul_div_cancel _ (Nat.pow_pos (by decide))]

theorem value_of_integer? {m n : Nat} {e : Int} (h : integer? m e = some n) :
    (n : ℚ) = m * 2 ^ e := by
  rw [integer?] at h
  split_ifs at h with nonneg divides
  · obtain ⟨k, rfl⟩ := Int.eq_ofNat_of_zero_le nonneg
    rw [← Option.some.inj h, Int.toNat_natCast, Nat.pow_eq, zpow_natCast]
    push_cast
    rfl
  · obtain ⟨k, rfl⟩ := Int.exists_eq_neg_ofNat (not_le.mp nonneg).le
    rw [neg_neg, Int.toNat_natCast, Nat.pow_eq] at divides h
    have power : (2 : ℚ) ^ k ≠ 0 := by positivity
    rw [zpow_neg, zpow_natCast, eq_mul_inv_iff_mul_eq₀ power, ← Option.some.inj h]
    exact_mod_cast Nat.div_mul_cancel (Nat.dvd_of_mod_eq_zero divides)

theorem ofInt_signed (s : Bool) {n : Nat} (h : n ≠ 0) :
    Text.ofInt (signed s n) = (if s then txt "-" else []) ++ Text.ofNat n := by
  obtain ⟨k, rfl⟩ := Nat.exists_eq_succ_of_ne_zero h
  cases s <;> rfl

/-- An integer is printed with its digits. -/
theorem text_of_value? {x : Double} {i : Int} (h : x.value? = some (i : ℚ))
    (small : i.natAbs < integerBound) : x.text = Text.ofInt i := by
  obtain ⟨s, m, e, canonical, rfl, sign, size⟩ := exists_units h
  by_cases empty : m = 0
  · rw [empty, Nat.cast_zero, zero_mul, eq_comm, Nat.cast_eq_zero, Int.natAbs_eq_zero] at size
    rw [text, if_pos empty, size]
    decide
  · have positive : i.natAbs ≠ 0 := by
      intro none
      rw [none, Nat.cast_zero, mul_eq_zero, Nat.cast_eq_zero] at size
      exact (by positivity : (2 : ℚ) ^ e ≠ 0) (size.resolve_left empty)
    have written : writePositive m e = Text.ofNat i.natAbs := by
      simp only [writePositive, integer?_eq size, if_pos small]
    rw [text, if_neg empty, written, sign, ofInt_signed _ positive, ← sign]

end ParamSchema.Double
