import ParamSchema.Double.Printed
import ParamSchema.Proofs.Numerals.Decimals

/-!
Printing and reading. The printed form of a positive double is a decimal numeral that is read back
as the double: the integers below `10 ^ 21` with their digits, all others as the shortest decimal
that does so. Hence the printed form of a finite double denotes that double, up to the sign of zero
(`Double.reduced?_text`).
-/

namespace ParamSchema.Double

open Numeral (Digits)

/-! ### Layouts of a decimal -/

theorem decimal_positional {digits : Text} {k : Nat} (filled : digits ≠ [])
    (h : Digits 10 digits k) (point : Int) :
    Numeral.Decimal (positional digits point) (k * 10 ^ (point - digits.length)) := by
  rw [positional]
  split_ifs with low inside
  · obtain ⟨z, rfl⟩ := Int.exists_eq_neg_ofNat low
    have zeros : Digits 10 ([chr '0'] ++ (List.replicate z (chr '0') ++ digits)) k := by
      have zero : Digits 10 [chr '0'] 0 := Numeral.digits_zeros (by decide) 1
      simpa using zero.append ((Numeral.digits_zeros (by decide) z).append h)
    have value : (0 : Int) - (List.replicate z (chr '0') ++ digits).length =
        -(z : Int) - digits.length := by
      rw [List.length_append, List.length_replicate]
      push_cast
      ring
    have pointed := Numeral.Decimal.pointed (List.cons_ne_nil _ _) zeros .absent
    rw [value, List.append_nil] at pointed
    rw [neg_neg, Int.toNat_natCast]
    exact pointed
  · obtain ⟨z, rfl⟩ := Int.eq_ofNat_of_zero_le (not_le.mp low).le
    rw [Int.toNat_natCast] at inside ⊢
    rw [← List.take_append_drop z digits] at h
    have value : (0 : Int) - (digits.drop z).length = (z : Int) - digits.length := by
      rw [List.length_drop]
      omega
    have pointed := Numeral.Decimal.pointed (by simpa using filled) h .absent
    rw [value, List.append_nil] at pointed
    rw [List.append_assoc]
    exact pointed
  · obtain ⟨z, rfl⟩ := Int.eq_ofNat_of_zero_le (not_le.mp low).le
    rw [Int.toNat_natCast] at inside ⊢
    obtain ⟨y, rfl⟩ := Nat.exists_eq_add_of_le (not_lt.mp inside)
    have whole := Numeral.Decimal.whole (by simp [filled])
      (h.append (Numeral.digits_zeros (by decide) y)) .absent
    rw [List.length_replicate, List.append_nil, zpow_zero, mul_one, add_zero, Nat.cast_mul,
      Nat.cast_pow, Nat.cast_ofNat] at whole
    rw [Nat.add_sub_cancel_left, Nat.cast_add, add_sub_cancel_left, zpow_natCast]
    exact whole

theorem power_written (power : Int) :
    Numeral.Power (chr 'e' :: ((if power < 0 then txt "-" else txt "+") ++
      Text.ofNat power.natAbs)) power := by
  have letter : chr 'e' ∈ txt "eE" := List.mem_cons_self
  have digits := Numeral.digits_ofNat power.natAbs
  by_cases negative : power < 0
  · have written := Numeral.Power.written letter Numeral.minus_mem_signs
      (Numeral.ofNat_ne_nil power.natAbs) digits
    rw [if_pos rfl, show -((power.natAbs : Nat) : Int) = power by omega] at written
    rw [if_pos negative]
    exact written
  · have written := Numeral.Power.written letter Numeral.plus_mem_signs
      (Numeral.ofNat_ne_nil power.natAbs) digits
    rw [if_neg Bool.false_ne_true, show ((power.natAbs : Nat) : Int) = power by omega] at written
    rw [if_neg negative]
    exact written

theorem decimal_scientific {digits : Text} {k : Nat} (filled : digits ≠ [])
    (h : Digits 10 digits k) (power : Int) :
    Numeral.Decimal (scientific digits power) (k * 10 ^ (power + 1 - digits.length)) := by
  have letter : txt "e" = [chr 'e'] := rfl
  have point : txt "." = [chr '.'] := rfl
  obtain ⟨c, rest, rfl⟩ := List.exists_cons_of_ne_nil filled
  by_cases alone : rest = []
  · subst alone
    have whole := Numeral.Decimal.whole filled h (power_written power)
    rw [List.length_singleton, Nat.cast_one, add_sub_cancel_right]
    simpa [scientific, letter] using whole
  · have pointed := Numeral.Decimal.pointed (w := [c]) (f := rest) filled h (power_written power)
    rw [List.length_cons, Nat.cast_succ, add_sub_add_right_eq_sub]
    simpa [scientific, alone, letter, point] using pointed

/-! ### The printed form -/

/-- Digits are those without the zeros at their end, and zeros. -/
theorem exists_zeros (t : Text) :
    ∃ z, t = Text.dropEndWhile (· == chr '0') t ++ List.replicate z (chr '0') := by
  refine ⟨(t.reverse.takeWhile (· == chr '0')).length, ?_⟩
  have zeros : List.replicate (t.reverse.takeWhile (· == chr '0')).length (chr '0') =
      t.reverse.takeWhile (· == chr '0') := by
    symm
    rw [List.eq_replicate_iff]
    refine ⟨rfl, fun c mem => ?_⟩
    have zero := List.mem_takeWhile_imp mem
    exact eq_of_beq zero
  rw [Text.dropEndWhile, ← List.reverse_replicate, zeros, ← List.reverse_append,
    List.takeWhile_append_dropWhile, List.reverse_reverse]

theorem decimal_writeDecimal {d : Decimal} (h : 0 < d.digits) :
    Numeral.Decimal (writeDecimal d) (d.digits * 10 ^ d.exponent) := by
  obtain ⟨z, split⟩ := exists_zeros (Text.ofNat d.digits)
  have all := Numeral.digits_ofNat d.digits
  rw [split] at all
  obtain ⟨k, k', digits, zeros, value⟩ := all.of_append
  have none : k' = 0 := zeros.unique (Numeral.digits_zeros (by decide) z) (by decide)
  rw [none, add_zero, List.length_replicate] at value
  have filled : Text.dropEndWhile (· == chr '0') (Text.ofNat d.digits) ≠ [] := by
    intro empty
    rw [empty] at digits
    rw [digits.unique .nil (by decide), zero_mul] at value
    omega
  have length : (Text.ofNat d.digits).length =
      (Text.dropEndWhile (· == chr '0') (Text.ofNat d.digits)).length + z := by
    conv_lhs => rw [split, List.length_append, List.length_replicate]
  have power : (d.digits : ℚ) * 10 ^ d.exponent =
      k * 10 ^ (((Text.ofNat d.digits).length : Int) + d.exponent -
        (Text.dropEndWhile (· == chr '0') (Text.ofNat d.digits)).length) := by
    rw [length, value, Nat.cast_add, add_assoc, add_sub_cancel_left, zpow_add₀ (by norm_num),
      zpow_natCast, Nat.cast_mul, Nat.cast_pow, Nat.cast_ofNat, mul_assoc]
  rw [writeDecimal, power]
  split_ifs
  · exact decimal_positional filled digits _
  · have scientific := decimal_scientific filled digits
      (((Text.ofNat d.digits).length : Int) + d.exponent - 1)
    rwa [sub_add_cancel] at scientific

theorem shortestDecimal_pos {m : Nat} {e : Int} (canonical : Canonical m e) (positive : m ≠ 0) :
    0 < (shortestDecimal m e).digits := by
  refine Nat.pos_of_ne_zero fun none => ?_
  have zero := ofDecimal_shortestDecimal false canonical
  rw [none, ofDecimal_zero] at zero
  injection zero with _ mantissa
  exact positive mantissa.symm

/-- The printed form of a positive double is a decimal numeral that reads back. -/
theorem exists_written {m : Nat} {e : Int} (canonical : Canonical m e) (positive : m ≠ 0) :
    ∃ (n : Nat) (k : Int), Numeral.Decimal (writePositive m e) (n * 10 ^ k) ∧
      ∀ s, ofDecimal s n k = .finite s m e canonical := by
  have shortest : ∃ (n : Nat) (k : Int),
      Numeral.Decimal (writeDecimal (shortestDecimal m e)) (n * 10 ^ k) ∧
        ∀ s, ofDecimal s n k = .finite s m e canonical := by
    have reads (s : Bool) := ofDecimal_shortestDecimal s canonical
    exact ⟨_, _, decimal_writeDecimal (shortestDecimal_pos canonical positive), reads⟩
  rw [writePositive]
  split
  case h_1 n found =>
    split_ifs
    · refine ⟨n, 0, by simpa using Numeral.decimal_ofNat n, fun s => ?_⟩
      rw [ofDecimal_exact s canonical]
      rw [zpow_zero, mul_one, value_of_integer? found]
    · exact shortest
  case h_2 => exact shortest

/-- A double without the sign of zero. -/
def unsignedZero (x : Double) : Double := if x.isZero then zero false else x

theorem value?_unsignedZero {x : Double} {a : ℚ} (h : x.value? = some a) :
    x.unsignedZero.value? = some a := by
  rw [unsignedZero]
  split_ifs with none
  · rw [(isZero_iff h).mp none]
    exact value?_zero false
  · exact h

/-- The printed form of a finite double denotes the double, up to the sign of zero. -/
theorem reduced?_text {x : Double} (h : x.isFinite = true) :
    Numeral.reduced? x.text = .ok (some x.unsignedZero) := by
  cases x with
  | nan => cases h
  | infinity s => cases h
  | finite s m e canonical =>
    by_cases none : m = 0
    · rw [text, if_pos none, unsignedZero, if_pos (by simp [isZero, none])]
      exact (Numeral.decimal_ofNat 0).reduced? Numeral.nil_mem_signs (n := 0) (k := 0) (by simp) rfl
    · obtain ⟨n, k, decimal, reads⟩ := exists_written canonical none
      have finite : (ofDecimal s n k).isFinite = true := by rw [reads s]; rfl
      have nonzero : unsignedZero (.finite s m e canonical) = .finite s m e canonical :=
        if_neg (by simp [isZero, none])
      rw [text, if_neg none, nonzero, ← reads s]
      cases s with
      | false => exact decimal.reduced? Numeral.nil_mem_signs rfl finite
      | true => exact decimal.reduced? Numeral.minus_mem_signs rfl finite

end ParamSchema.Double
