import ParamSchema.Proofs.Double.Printing
import ParamSchema.Proofs.Json.Reading
import ParamSchema.Proofs.Numerals.Agreement

/-!
Printed doubles as literals. A printed number never begins with a zero and goes on with octal
digits alone, so the reader of literals takes it for a decimal as well (`Double.literal?_text`).
Both readers thus give back the double that was printed, up to the sign of zero, and different
doubles are printed differently (`Double.text_reads_back`).
-/

namespace ParamSchema.Double

open Numeral (Digits)

/-! ### Printed numbers are not octal -/

theorem ne_octal_of_mem {u v : Text} {c : CodePoint} {m : Nat} (mem : c ∈ u)
    (other : Numeral.isOctalDigit c = false) (digits : Digits 8 v m) : u ≠ chr '0' :: v := by
  rintro rfl
  rcases List.mem_cons.mp mem with rfl | mem
  · exact absurd other (by decide)
  · rw [(Numeral.isDecimalMark_of_octal digits c mem).1] at other
    cases other

theorem head?_ofNat_ne {n : Nat} (h : 0 < n) : (Text.ofNat n).head? ≠ some (chr '0') := by
  rw [Text.ofNat, Text.ofChars, List.head?_map]
  intro zero
  obtain ⟨d, head, eq⟩ := Option.map_eq_some_iff.mp zero
  have digit : d = '0' := CodePoint.eq_of_ofChar eq
  exact Json.head?_toDigits_ne h (digit ▸ head)

theorem ne_octal_positional {digits v : Text} {m : Nat} (filled : digits ≠ [])
    (head : digits.head? ≠ some (chr '0')) (point : Int) (octal : Digits 8 v m) :
    positional digits point ≠ chr '0' :: v := by
  have mark : chr '.' ∈ txt "." := List.mem_cons_self
  have other : Numeral.isOctalDigit (chr '.') = false := by decide
  rw [positional]
  split_ifs with low inside
  · exact ne_octal_of_mem (by simp [txt, Text.ofString, Text.ofChars]) other octal
  · exact ne_octal_of_mem (by simp [mark]) other octal
  · -- without a point the number begins with its first digit
    obtain ⟨c, rest, rfl⟩ := List.exists_cons_of_ne_nil filled
    intro eq
    exact head (congrArg some (List.cons.inj eq).1)

theorem ne_octal_scientific {digits v : Text} {m : Nat} (power : Int) (octal : Digits 8 v m) :
    scientific digits power ≠ chr '0' :: v := by
  have letter : chr 'e' ∈ txt "e" := List.mem_cons_self
  have other : Numeral.isOctalDigit (chr 'e') = false := by decide
  exact ne_octal_of_mem (by simp [scientific, letter]) other octal

theorem ne_octal_writeDecimal {d : Decimal} {v : Text} {m : Nat} (h : 0 < d.digits)
    (octal : Digits 8 v m) : writeDecimal d ≠ chr '0' :: v := by
  obtain ⟨z, split⟩ := exists_zeros (Text.ofNat d.digits)
  have first := head?_ofNat_ne h
  rw [writeDecimal]
  generalize Text.dropEndWhile (· == chr '0') (Text.ofNat d.digits) = digits at split ⊢
  -- the digits of a positive number are not zeros alone, so the first of them stays
  have filled : digits ≠ [] := by
    rintro rfl
    rw [List.nil_append] at split
    cases z with
    | zero => exact Numeral.ofNat_ne_nil d.digits split
    | succ z =>
      rw [split] at first
      exact first rfl
  have head : digits.head? ≠ some (chr '0') := by
    rwa [split, List.head?_append_of_ne_nil _ filled] at first
  split_ifs
  · exact ne_octal_positional filled head _ octal
  · exact ne_octal_scientific _ octal

theorem ne_octal_writePositive {k : Nat} {e : Int} {v : Text} {m : Nat} (canonical : Canonical k e)
    (positive : k ≠ 0) (octal : Digits 8 v m) : writePositive k e ≠ chr '0' :: v := by
  have shortest := ne_octal_writeDecimal (shortestDecimal_pos canonical positive) octal
  rw [writePositive]
  split
  case h_1 n found =>
    split_ifs
    · have nonzero : 0 < n := by
        have value : (0 : ℚ) < n := by
          rw [value_of_integer? found]
          positivity
        exact_mod_cast value
      intro eq
      exact head?_ofNat_ne nonzero (eq ▸ rfl)
    · exact shortest
  case h_2 => exact shortest

/-! ### Reading back -/

theorem literal?_text {x : Double} (h : x.isFinite = true) :
    Numeral.literal? x.text = .ok (some x.unsignedZero) := by
  have underscore : ¬ Numeral.IsDecimalMark (chr '_') := by
    rw [Numeral.IsDecimalMark]
    decide
  have plain {u : Text} {q : ℚ} (decimal : Numeral.Decimal u q) : chr '_' ∉ u :=
    fun mem => underscore (decimal.isDecimalMark mem)
  -- a decimal without a sign is read as the other reader does
  have unsigned {u : Text} {q : ℚ} (decimal : Numeral.Decimal u q) (proper : ¬ Numeral.IsMisread u)
      {y : Double} (read : Numeral.reduced? u = .ok (some y)) :
      Numeral.literal? u = .ok (some y) := by
    refine Numeral.literal?_of_reduced? ?_ proper read
    rw [Numeral.filter_of_no_underscore (plain decimal)]
    exact .decimal decimal
  have read := reduced?_text h
  cases x with
  | nan => cases h
  | infinity s => cases h
  | finite s m e canonical =>
    by_cases none : m = 0
    · rw [text, if_pos none] at read ⊢
      refine unsigned (Numeral.decimal_ofNat 0) ?_ read
      rintro ⟨u, k, zero, digits, large⟩
      obtain rfl : u = [] := (List.cons.inj zero).2.symm
      have := digits.unique .nil (by decide)
      omega
    · obtain ⟨n, k, decimal, reads⟩ := exists_written canonical none
      rw [text, if_neg none] at read ⊢
      cases s with
      | false =>
        refine unsigned decimal ?_ read
        rintro ⟨u, k, octal, digits, -⟩
        exact ne_octal_writePositive canonical none digits octal
      | true =>
        have nonzero : unsignedZero (.finite true m e canonical) = .finite true m e canonical :=
          if_neg (by simp [isZero, none])
        rw [nonzero, ← reads true]
        refine Numeral.literal?_negative (Numeral.filter_of_no_underscore ?_) decimal rfl
        intro mem
        exact underscore (decimal.isDecimalMark_signed Numeral.minus_mem_signs _ mem)

theorem eq_of_unsignedZero {x y : Double} (h : x.unsignedZero = y.unsignedZero) :
    x = y ∨ x.isZero = true ∧ y.isZero = true := by
  rw [unsignedZero, unsignedZero] at h
  split_ifs at h with zeroX zeroY zeroY
  · exact .inr ⟨zeroX, zeroY⟩
  · exact absurd (h ▸ rfl) zeroY
  · exact absurd (h ▸ rfl) zeroX
  · exact .inl h

theorem text_of_isZero {x : Double} (h : x.isZero = true) : x.text = txt "0" := by
  cases x with
  | nan => cases h
  | infinity s => cases h
  | finite s m e canonical => rw [text, if_pos (eq_of_beq h)]

/-- Reading what was printed gives the double back, by either reader and up to the sign of zero; so
doubles that are printed alike are the same or both zero. -/
theorem text_reads_back {x : Double} (h : x.isFinite = true) :
    Numeral.reduced? x.text = .ok (some x.unsignedZero) ∧
      Numeral.literal? x.text = .ok (some x.unsignedZero) ∧
      ∀ y : Double, y.isFinite = true →
        (x.text = y.text ↔ x = y ∨ x.isZero = true ∧ y.isZero = true) := by
  refine ⟨reduced?_text h, literal?_text h, fun y hy => ⟨fun same => ?_, ?_⟩⟩
  · have read := reduced?_text h
    rw [same, reduced?_text hy] at read
    exact eq_of_unsignedZero (Option.some.inj (Except.ok.inj read)).symm
  · rintro (rfl | ⟨zeroX, zeroY⟩)
    · rfl
    · rw [text_of_isZero zeroX, text_of_isZero zeroY]

/-- The least positive double, and a negative integer beyond the range of positional notation. -/
theorem text_reads_back_extremes :
    (ofDecimal false 5 (-324)).isFinite = true ∧ (ofDecimal true 123 20).isFinite = true ∧
      (ofDecimal false 5 (-324)).text = txt "5e-324" ∧
      (ofDecimal true 123 20).text = txt "-1.23e+22" ∧
      Numeral.literal? (ofDecimal false 5 (-324)).text = .ok (some (ofDecimal false 5 (-324))) ∧
      Numeral.reduced? (ofDecimal true 123 20).text = .ok (some (ofDecimal true 123 20)) ∧
      ((ofDecimal false 5 (-324)).text = (ofDecimal true 123 20).text ↔
        ofDecimal false 5 (-324) = ofDecimal true 123 20 ∨
          (ofDecimal false 5 (-324)).isZero = true ∧ (ofDecimal true 123 20).isZero = true) := by
  have least : (ofDecimal false 5 (-324)).isFinite = true := by decide +kernel
  have large : (ofDecimal true 123 20).isFinite = true := by decide +kernel
  have positive : (ofDecimal false 5 (-324)).unsignedZero = ofDecimal false 5 (-324) :=
    if_neg (by decide +kernel)
  have negative : (ofDecimal true 123 20).unsignedZero = ofDecimal true 123 20 :=
    if_neg (by decide +kernel)
  refine ⟨least, large, by decide +kernel, by decide +kernel, ?_, ?_, ?_⟩
  · have read := (text_reads_back least).2.1
    rwa [positive] at read
  · have read := (text_reads_back large).1
    rwa [negative] at read
  · exact (text_reads_back least).2.2 _ large

end ParamSchema.Double
