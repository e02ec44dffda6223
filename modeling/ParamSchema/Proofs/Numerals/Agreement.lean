import ParamSchema.Proofs.Numerals.Literals

/-!
The two readers of numbers. A number literal is read by its own grammar, and a text that was folded
before by another one. A literal that both accept is the same number for both
(`Numeral.literal?_of_reduced?`), except for octal digits behind a zero: the second reader takes
them for decimal digits, which are another number unless they are a single digit behind zeros
(`Numeral.IsMisread`).
-/

namespace ParamSchema.Numeral

/-- The forms of number literals, without underscores: digits behind the mark of a radix, decimals,
also those that are octal by a zero in front, and either with the mark of an unbounded integer. -/
inductive Literal : Text → Prop where
  | marked {radix : Nat} {letter : CodePoint} {t : Text} {n : Nat} :
      (radix, letter) ∈ radixLetters → t ≠ [] → Digits radix t n →
        Literal (chr '0' :: letter :: t)
  | decimal {t : Text} {q : ℚ} : Decimal t q → Literal t
  | unbounded {t : Text} : Literal t → Literal (t ++ [chr 'n'])

/-- Octal digits behind a zero that are another number as decimal digits. -/
def IsMisread (t : Text) : Prop := ∃ u m, t = chr '0' :: u ∧ Digits 8 u m ∧ 8 ≤ m

theorem Literal.isVisible {t : Text} (h : Literal t) : ∀ c ∈ t, IsVisible c := by
  induction h with
  | marked known _ digits =>
    obtain ⟨small, visible, -⟩ := radixLetters_known _ known
    exact isVisible_marked visible digits small
  | decimal decimal => exact fun c mem => (decimal.isDecimalMark mem).isVisible
  | unbounded _ ih =>
    intro c mem
    rcases List.mem_append.mp mem with mem | last
    · exact ih c mem
    · exact List.mem_singleton.mp last ▸ by decide

theorem radixLetters_other : ∀ p ∈ radixLetters, ¬ IsDecimalMark p.2 := by
  simp only [IsDecimalMark]
  decide

theorem not_isDecimalMark_suffix : ¬ IsDecimalMark (chr 'n') := by
  rw [IsDecimalMark]
  decide

theorem Literal.exists_cons {t : Text} (h : Literal t) : ∃ c u, t = c :: u := by
  induction h with
  | marked => exact ⟨_, _, rfl⟩
  | decimal decimal =>
    obtain ⟨c, u, form, -⟩ := decimal.exists_cons
    exact ⟨c, u, form⟩
  | unbounded _ ih =>
    obtain ⟨c, u, rfl⟩ := ih
    exact ⟨c, u ++ [chr 'n'], rfl⟩

/-- A literal of the characters of decimals does not end with the letter of a power. -/
theorem Literal.last {t : Text} (h : Literal t) (marks : ∀ c ∈ t, IsDecimalMark c) :
    ∃ u c, t = u ++ [c] ∧ c ∉ txt "eE" := by
  cases h with
  | marked known =>
    exact absurd (marks _ (List.mem_cons_of_mem _ List.mem_cons_self)) (radixLetters_other _ known)
  | decimal decimal => exact decimal.last
  | unbounded =>
    exact absurd (marks _ (List.mem_append_right _ List.mem_cons_self)) not_isDecimalMark_suffix

theorem filter_of_no_underscore {t : Text} (h : chr '_' ∉ t) : t.filter (· != chr '_') = t := by
  rw [List.filter_eq_self]
  intro c mem
  rw [bne_iff_ne]
  rintro rfl
  exact h mem

theorem isVisible_of_filter {t : Text} (h : Literal (t.filter (· != chr '_'))) :
    ∀ c ∈ t, IsVisible c := by
  intro c mem
  by_cases underscore : c = chr '_'
  · exact underscore ▸ by decide
  · exact h.isVisible c (List.mem_filter.mpr ⟨mem, by simpa using underscore⟩)

/-! ### Octal digits -/

theorem IsDigit.of_octal {c : CodePoint} {d : Nat} (h : IsDigit 8 c d) : IsDigit 10 c d :=
  ⟨by have := h.1; omega, h.2⟩

/-- Octal digits are decimal digits of no smaller number, and of a larger one unless the number is
a single digit. -/
theorem Digits.of_octal {t : Text} {m : Nat} (h : Digits 8 t m) :
    ∃ n, Digits 10 t n ∧ m ≤ n ∧ (m < 8 → m = n) ∧ (8 ≤ m → m < n) := by
  induction h with
  | nil => exact ⟨0, .nil, by omega⟩
  | @snoc t m c d _ digit ih =>
    obtain ⟨n, digits, le, same, less⟩ := ih
    have below := digit.1
    exact ⟨n * 10 + d, digits.snoc digit.of_octal, by omega, by omega, by omega⟩

theorem ofInteger_eq_ofDecimal {n : Nat} (h : n ≤ Double.exactBound) :
    ofInteger n = .ok (Double.ofDecimal false n 0) := by
  obtain ⟨m, e, canonical, form⟩ := Double.exists_canonical h
  have decimal : Double.ofDecimal false n 0 = .finite false m e canonical :=
    Double.ofDecimal_exact false canonical (by rw [zpow_zero, mul_one, form])
  have whole : Double.ofNat n = .finite false m e canonical :=
    Double.ofRatio_exact false Nat.one_pos canonical (by rw [Nat.cast_one, div_one, form])
  rw [ofInteger, whole, decimal]

/-! ### Agreement -/

theorem Decimal.eq_of_reduced? {t : Text} {q : ℚ} (h : Decimal t q) {n : Nat} {k : Int}
    (same : (n : ℚ) * 10 ^ k = q) {x : Double} (read : Numeral.reduced? t = .ok (some x)) :
    x = Double.ofDecimal false n k := by
  have visible : ∀ c ∈ t, IsVisible c := fun c mem => (h.isDecimalMark mem).isVisible
  rw [Numeral.reduced?, trim_of_visible visible] at read
  split at read
  case isTrue => cases read
  case isFalse =>
    rw [show t = [] ++ t from rfl, h.float? nil_mem_signs same] at read
    simp only [Except.ok.injEq] at read
    exact (Option.some.inj (Option.ite_none_right_eq_some.mp read).2).symm

theorem not_isRadixMark_suffix : ¬ IsRadixMark (chr 'n') := by
  rintro (letter | ⟨d, digit⟩)
  · exact absurd letter (by decide)
  · exact absurd (digit.appearance le_rfl).2.2.1 (by decide)

theorem ofInteger_of_denotes {radix n : Nat} {letter : CodePoint} {t : Text}
    (known : (radix, letter) ∈ radixLetters) (filled : t ≠ []) (digits : Digits radix t n)
    {x : Double} (h : Denotes (chr '0' :: letter :: t) x) :
    (ofInteger n).map some = .ok (some x) := by
  obtain ⟨small, visibleLetter, -⟩ := radixLetters_known _ known
  have visible := isVisible_marked visibleLetter digits small
  cases h with
  | decimal sign split decimal =>
    rw [plain_of_visible visible, trim_of_visible visible] at split
    have mem : letter ∈ chr '0' :: letter :: t := List.mem_cons_of_mem _ List.mem_cons_self
    rw [split] at mem
    exact absurd (decimal.isDecimalMark_signed sign letter mem) (radixLetters_other _ known)
  | marked _ announced read =>
    rw [markedRadix?_of_letter known] at announced
    cases announced
    rw [← marked?_of_digits known filled digits]
    exact read

theorem literal?_of_decimal {t : Text} {q : ℚ} (form : t.filter (· != chr '_') = t)
    (decimal : Decimal t q) (proper : ¬ IsMisread t) {x : Double}
    (h : reduced? t = .ok (some x)) : literal? t = .ok (some x) := by
  by_cases octal : ∃ u m, u ≠ [] ∧ Digits 8 u m ∧ t = chr '0' :: u
  · -- a single octal digit behind zeros is the same decimal digit
    obtain ⟨u, m, filled, digits, rfl⟩ := octal
    obtain ⟨n, decimals, -, same, -⟩ := digits.of_octal
    have single : m < 8 := by
      by_contra large
      exact proper ⟨u, m, rfl, digits, not_lt.mp large⟩
    cases same single
    have zero : Digits 10 [chr '0'] 0 := digits_zeros (by decide) 1
    have whole : Decimal (chr '0' :: u) m := by
      simpa using Decimal.whole (by simp) (zero.append decimals) .absent
    have exact : m ≤ Double.exactBound := single.le.trans (by decide)
    rw [literal?_octal form filled digits, ofInteger_eq_ofDecimal exact,
      whole.eq_of_reduced? (k := 0) (by rw [zpow_zero, mul_one]) h]
    rfl
  · obtain ⟨n, k, -, same⟩ := decimal.decimal?
    rw [decimal.eq_of_reduced? same h]
    refine literal?_decimal form decimal ?_ same
    intro u m filled digits eq
    exact octal ⟨u, m, filled, digits, eq⟩

/-- A literal that is a text of a number too is that number, unless it is misread. -/
theorem literal?_of_reduced? {t : Text} (literal : Literal (t.filter (· != chr '_')))
    (proper : ¬ IsMisread t) {x : Double} (h : reduced? t = .ok (some x)) :
    literal? t = .ok (some x) := by
  have visible := isVisible_of_filter literal
  obtain ⟨plain, denotes⟩ := denotes_of_reduced? h
  rw [trim_of_visible visible] at plain denotes
  have form := filter_of_no_underscore plain
  rw [form] at literal
  cases literal with
  | marked known filled digits =>
    rw [literal?_marked known form filled digits]
    exact ofInteger_of_denotes known filled digits denotes
  | decimal decimal => exact literal?_of_decimal form decimal proper h
  | @unbounded u _ =>
    have mem : chr 'n' ∈ u ++ [chr 'n'] := by simp
    have marks := denotes.marks
    rw [plain_of_visible visible, trim_of_visible visible] at marks
    rcases marks with decimal | radix
    · exact absurd (decimal _ mem) not_isDecimalMark_suffix
    · exact absurd (radix _ mem) not_isRadixMark_suffix

/-- A misread literal of an exact decimal is a smaller number than its text. -/
theorem IsMisread.numbers {t : Text} (h : IsMisread t) {n : Nat} (decimals : Digits 10 t n)
    (small : n ≤ Double.exactBound) : ∃ m < n, ∃ x y, reduced? t = .ok (some x) ∧
      x.value? = some (n : ℚ) ∧ literal? t = .ok (some y) ∧ y.value? = some (m : ℚ) := by
  obtain ⟨u, m, rfl, digits, large⟩ := h
  have filled : u ≠ [] := by
    rintro rfl
    have none := digits.unique .nil (by decide)
    omega
  have less : m < n := by
    have zero : Digits 10 [chr '0'] 0 := digits_zeros (by decide) 1
    obtain ⟨k, decimals', -, -, less⟩ := digits.of_octal
    have value := decimals.unique (by simpa using zero.append decimals') (by decide)
    omega
  have form := filter_of_no_underscore fun mem =>
    (decimals.bounds_of_mem (by decide) mem).2.2 rfl
  have read : literal? (chr '0' :: u) = .ok (some (Double.ofDecimal false m 0)) := by
    rw [literal?_octal form filled digits, ofInteger_eq_ofDecimal (less.le.trans small)]
    rfl
  have value := value?_ofDecimal false small
  have decimal : Decimal (chr '0' :: u) n := by
    simpa using Decimal.whole (List.cons_ne_nil _ _) decimals .absent
  refine ⟨m, less, _, _, ?_, value, read, value?_ofDecimal false (less.le.trans small)⟩
  exact decimal.reduced? nil_mem_signs (k := 0) (by rw [zpow_zero, mul_one])
    (Double.isFinite_of_value? value)

end ParamSchema.Numeral
