import ParamSchema.Proofs.Numerals.Reading
import ParamSchema.Proofs.Text.Pieces

/-!
Number literals. A literal is written with the mark of a radix, with a zero before octal digits or
as a decimal (`Numeral.Spells`), and one of an exact integer is read as that integer
(`Numeral.Spells.literal?`).
-/

namespace ParamSchema.Numeral

/-! ### Spellings -/

/-- The letters that mark a radix. -/
def radixLetters : List (Nat × CodePoint) :=
  [(16, chr 'x'), (16, chr 'X'), (8, chr 'o'), (8, chr 'O'), (2, chr 'b'), (2, chr 'B')]

/-- The ways to write a natural number as a literal, without underscores: with the mark of its
radix, with a zero before octal digits, and as a decimal that is no such octal numeral. -/
inductive Spells : Text → Nat → Prop where
  | marked {radix : Nat} {letter : CodePoint} {t : Text} {n : Nat} :
      (radix, letter) ∈ radixLetters → t ≠ [] → Digits radix t n →
        Spells (chr '0' :: letter :: t) n
  | octal {t : Text} {n : Nat} : t ≠ [] → Digits 8 t n → Spells (chr '0' :: t) n
  | decimal {t : Text} {n : Nat} :
      Decimal t n → (∀ u m, u ≠ [] → Digits 8 u m → t ≠ chr '0' :: u) → Spells t n

theorem asciiLower_append (s t : Text) :
    Text.asciiLower (s ++ t) = Text.asciiLower s ++ Text.asciiLower t :=
  List.map_append

theorem Digits.asciiLower {radix n : Nat} {t : Text} (h : Digits radix t n) (small : radix ≤ 16) :
    Digits radix (Text.asciiLower t) n := by
  induction h with
  | nil => exact .nil
  | snoc _ digit ih =>
    rw [asciiLower_append]
    exact ih.snoc ⟨digit.1, .inl (digit.appearance small).2.2.2.2⟩

theorem Power.asciiLower {t : Text} {k : Int} (h : Power t k) : Power (Text.asciiLower t) k := by
  have letters : ∀ c ∈ txt "eE", c.asciiLower ∈ txt "eE" := by decide
  have marks : ∀ negative, ∀ w ∈ signs negative, Text.asciiLower w ∈ signs negative := by decide
  cases h with
  | absent => exact .absent
  | @written c negative sign t n letter known filled digits =>
    show Power (c.asciiLower :: Text.asciiLower (sign ++ t)) _
    rw [asciiLower_append]
    exact .written (letters c letter) (marks negative sign known)
      (by simpa [Text.asciiLower] using filled) (digits.asciiLower (by decide))

theorem Decimal.asciiLower {t : Text} {q : ℚ} (h : Decimal t q) :
    Decimal (Text.asciiLower t) q := by
  cases h with
  | whole filled digits power =>
    rw [asciiLower_append]
    exact .whole (by simpa [Text.asciiLower] using filled) (digits.asciiLower (by decide))
      power.asciiLower
  | @pointed w f p n k filled digits power =>
    have lower := digits.asciiLower (by decide)
    rw [asciiLower_append] at lower ⊢
    show Decimal (Text.asciiLower w ++ chr '.' :: Text.asciiLower (f ++ p)) _
    have length : (Text.asciiLower f).length = f.length := List.length_map _
    rw [asciiLower_append, ← length]
    exact .pointed (by simpa [Text.asciiLower] using filled) lower power.asciiLower

theorem markedRadix?_of_marks {t : Text} (h : ∀ c ∈ t, IsDecimalMark c) :
    markedRadix? t = none := by
  have others : ∀ c ∈ txt ".eE+-", c.asciiLower ∉ txt "xob" := by decide
  have digits : ∀ c ∈ txt "xob", c.isAsciiDigit = false := by decide
  have marks : ∀ radix ∈ [16, 8, 2], ∀ c ∈ radixMark radix, c ∈ txt "xob" := by decide
  have letter {c : CodePoint} (mark : IsDecimalMark c) : c.asciiLower ∉ txt "xob" := by
    rcases mark with digit | mark
    · intro mem
      rw [asciiLower_of_begins (.inl digit)] at mem
      rw [digits c mem] at digit
      cases digit
    · exact others c mark
  cases t with
  | nil => rfl
  | cons c t =>
    cases t with
    | nil => rfl
    | cons d t =>
      have absent :
          ([16, 8, 2].find? fun radix => radixMark radix == some d.asciiLower) = none := by
        rw [List.find?_eq_none]
        intro radix mem eq
        exact letter (h d (by simp)) (marks radix mem _ (eq_of_beq eq))
      rw [markedRadix?, absent, ite_self]

theorem ofInteger_exact {n : Nat} (h : n ≤ Double.exactBound) :
    ∃ x, ofInteger n = .ok x ∧ x.value? = some (n : ℚ) := by
  have value : (Double.ofNat n).value? = some (n : ℚ) :=
    Double.value?_ofRatio false Nat.one_pos (by simp) (Double.representable_int (i := n) h)
  obtain ⟨s, m, e, canonical, form, -⟩ := Double.value?_eq_some.mp value
  exact ⟨Double.ofNat n, by rw [ofInteger, form], value⟩

theorem Digits.bounds_of_mem {radix n : Nat} {t : Text} (h : Digits radix t n) (small : radix ≤ 16)
    {c : CodePoint} (mem : c ∈ t) : 0x30 ≤ c.val ∧ c.val ≤ 0x66 ∧ c.val ≠ 0x5F := by
  obtain ⟨d, digit⟩ := h.of_mem mem
  obtain ⟨-, low, high, other, -⟩ := digit.appearance small
  exact ⟨low, high, other⟩

theorem isVisible_marked {radix n : Nat} {letter : CodePoint} {t : Text} (h : IsVisible letter)
    (digits : Digits radix t n) (small : radix ≤ 16) :
    ∀ c ∈ chr '0' :: letter :: t, IsVisible c := by
  intro c mem
  rcases List.mem_cons.mp mem with rfl | mem
  · decide
  · rcases List.mem_cons.mp mem with rfl | mem
    · exact h
    · obtain ⟨low, high, -⟩ := digits.bounds_of_mem small mem
      exact ⟨by omega, by omega⟩

theorem radixLetters_known : ∀ p ∈ radixLetters, p.1 ≤ 16 ∧ IsVisible p.2 ∧
    radixMark p.1 = some p.2.asciiLower ∧ (p.1, p.2.asciiLower) ∈ radixLetters ∧
      ([16, 8, 2].find? fun radix => radixMark radix == some p.2.asciiLower) = some p.1 := by
  decide

section

variable {radix n : Nat} {letter : CodePoint} {t : Text} (known : (radix, letter) ∈ radixLetters)

include known

theorem markedRadix?_of_letter : markedRadix? (chr '0' :: letter :: t) = some radix :=
  (radixLetters_known _ known).2.2.2.2

theorem marked?_of_digits (filled : t ≠ []) (digits : Digits radix t n) :
    marked? radix (chr '0' :: letter :: t) = (ofInteger n).map some := by
  obtain ⟨c, t, rfl⟩ := List.exists_cons_of_ne_nil filled
  obtain ⟨radixSmall, visibleLetter, mark, -⟩ := radixLetters_known _ known
  have visible := isVisible_marked visibleLetter digits radixSmall
  have underscore : chr '_' ∉ c :: t := by
    intro mem
    exact (digits.bounds_of_mem radixSmall mem).2.2 rfl
  have first : (c == chr '_') = false := by
    rw [beq_eq_false_iff_ne]
    rintro rfl
    exact underscore List.mem_cons_self
  have dropped : dropMark radix (chr '0' :: letter :: c :: t) = c :: t := by
    simp [dropMark, mark, first]
  have unsigned : sign (chr '0' :: letter :: c :: t) = (false, chr '0' :: letter :: c :: t) :=
    sign_append nil_mem_signs _ (.inl (by decide))
  have integer : integer? radix (chr '0' :: letter :: c :: t) = some (n : Int) := by
    rw [Numeral.integer?, plain_of_visible visible, trim_of_visible visible, unsigned]
    simp [dropped, grouped?, Text.splitOn_of_not_mem underscore, digits.digits? radixSmall]
  rw [marked?, integer]
  exact congrArg (fun n => (ofInteger n).map some) (Int.natAbs_natCast n)

theorem literal?_marked {w : Text} (form : w.filter (· != chr '_') = chr '0' :: letter :: t)
    (filled : t ≠ []) (digits : Digits radix t n) : literal? w = (ofInteger n).map some := by
  obtain ⟨radixSmall, visibleLetter, -, lowerKnown, announced⟩ := radixLetters_known _ known
  have visible := isVisible_marked visibleLetter digits radixSmall
  have lower := digits.asciiLower radixSmall
  have filled' : Text.asciiLower t ≠ [] := by simpa [Text.asciiLower] using filled
  have proper : ¬ ((Text.asciiLower (chr '0' :: letter :: t)).isEmpty ||
      (Text.asciiLower (chr '0' :: letter :: t)).getLast? == some (chr 'n')) = true := by
    obtain ⟨c, v, eq⟩ := List.exists_cons_of_ne_nil filled'
    show ¬ (false || (chr '0' :: letter.asciiLower :: Text.asciiLower t).getLast? ==
      some (chr 'n')) = true
    rw [eq, List.getLast?_cons_cons, List.getLast?_cons_cons, ← eq, Bool.false_or]
    intro last
    have := lower.bounds_of_mem radixSmall (List.mem_of_getLast? (eq_of_beq last))
    exact absurd this (by decide)
  have radix? : markedRadix? (Text.asciiLower (chr '0' :: letter :: t)) = some radix :=
    markedRadix?_of_letter lowerKnown
  rw [literal?, form, trim_of_visible visible, if_neg proper, radix?]
  exact marked?_of_digits lowerKnown filled' lower

end

theorem isDigit_of_isOctalDigit {c : CodePoint} (h : isOctalDigit c = true) :
    ∃ d, IsDigit 8 c d := by
  have all : ∀ d < 8, (chr (Nat.digitChar d)).val = d + 0x30 := by decide
  simp only [isOctalDigit, Bool.and_eq_true, decide_eq_true_eq] at h
  refine ⟨c.val - 0x30, by omega, .inl (eq_of_val ?_)⟩
  rw [all _ (by omega)]
  omega

theorem exists_octal {t : Text} (h : ∀ c ∈ t, isOctalDigit c = true) : ∃ n, Digits 8 t n := by
  induction t using List.reverseRecOn with
  | nil => exact ⟨0, .nil⟩
  | append_singleton t c ih =>
    obtain ⟨n, digits⟩ := ih fun d mem => h d (List.mem_append_left _ mem)
    obtain ⟨d, digit⟩ := isDigit_of_isOctalDigit (h c (by simp))
    exact ⟨_, digits.snoc digit⟩

theorem not_suffix_of_marks {t : Text} (filled : t ≠ []) (h : ∀ c ∈ t, IsDecimalMark c) :
    ¬ (t.isEmpty || t.getLast? == some (chr 'n')) = true := by
  obtain ⟨c, u, rfl⟩ := List.exists_cons_of_ne_nil filled
  rw [List.isEmpty_cons, Bool.false_or]
  intro last
  have := h _ (List.mem_of_getLast? (eq_of_beq last))
  exact absurd this (by rw [IsDecimalMark]; decide)

theorem isDecimalMark_of_octal {t : Text} {n : Nat} (h : Digits 8 t n) :
    ∀ c ∈ t, isOctalDigit c = true ∧ IsDecimalMark c ∧ c.asciiLower = c := by
  have all : ∀ d : Fin 8, ∀ c ∈ [chr (Nat.digitChar d), chr (Nat.digitChar d).toUpper],
      isOctalDigit c = true ∧ c.isAsciiDigit = true ∧ c.asciiLower = c := by decide
  intro c mem
  obtain ⟨d, below, form⟩ := h.of_mem mem
  obtain ⟨octal, digit, lower⟩ := all ⟨d, below⟩ c (by simpa using form)
  exact ⟨octal, .inl digit, lower⟩

theorem literal?_octal {n : Nat} {t u : Text} (form : t.filter (· != chr '_') = chr '0' :: u)
    (filled : u ≠ []) (digits : Digits 8 u n) : literal? t = (ofInteger n).map some := by
  have zero : Digits 8 [chr '0'] 0 := digits_zeros (by decide) 1
  have whole : Digits 8 (chr '0' :: u) n := by simpa using zero.append digits
  have known := isDecimalMark_of_octal whole
  have visible : ∀ c ∈ chr '0' :: u, IsVisible c := fun c mem => (known c mem).2.1.isVisible
  have marks : ∀ c ∈ chr '0' :: u, IsDecimalMark c := fun c mem => (known c mem).2.1
  have lower : Text.asciiLower (chr '0' :: u) = chr '0' :: u := by
    rw [Text.asciiLower, List.map_congr_left fun c mem => (known c mem).2.2, List.map_id']
  have octal : (1 < (chr '0' :: u).length && (chr '0' :: u).head? == some (chr '0') &&
      (chr '0' :: u).all isOctalDigit) = true := by
    have long : 0 < List.length u := List.length_pos_iff.mpr filled
    have all : (chr '0' :: u).all isOctalDigit = true :=
      List.all_eq_true.mpr fun c mem => (known c mem).1
    simp [long, all]
  rw [literal?, form, trim_of_visible visible, lower,
    if_neg (not_suffix_of_marks (by simp) marks), markedRadix?_of_marks marks]
  simp only [octal, whole.digits? (by decide : 8 ≤ 16), if_true]

/-- Lower case makes no new digits. -/
theorem eq_of_asciiLower_octal {t : Text}
    (h : ∀ c ∈ Text.asciiLower t, isOctalDigit c = true) : Text.asciiLower t = t := by
  conv_rhs => rw [← List.map_id t]
  apply List.map_congr_left
  intro c mem
  have digit := h _ (List.mem_map_of_mem mem)
  by_cases upper : 0x41 ≤ c.val ∧ c.val ≤ 0x5A
  · rw [CodePoint.asciiLower, dif_pos upper] at digit
    simp only [isOctalDigit, Bool.and_eq_true, decide_eq_true_eq] at digit
    omega
  · rw [CodePoint.asciiLower, dif_neg upper]
    rfl

theorem literal?_decimal {q : ℚ} {t u : Text} (form : t.filter (· != chr '_') = u)
    (decimal : Decimal u q) (other : ∀ v m, v ≠ [] → Digits 8 v m → u ≠ chr '0' :: v)
    {n : Nat} {k : Int} (same : (n : ℚ) * 10 ^ k = q) :
    literal? t = .ok (some (Double.ofDecimal false n k)) := by
  have visible : ∀ c ∈ u, IsVisible c := fun c mem => (decimal.isDecimalMark mem).isVisible
  have lower := decimal.asciiLower
  have marks : ∀ c ∈ Text.asciiLower u, IsDecimalMark c := fun c => lower.isDecimalMark
  have filled : Text.asciiLower u ≠ [] := by
    obtain ⟨c, v, eq, -⟩ := lower.exists_cons
    rw [eq]
    exact List.cons_ne_nil c v
  have notOctal : ¬ (1 < (Text.asciiLower u).length &&
      (Text.asciiLower u).head? == some (chr '0') &&
      (Text.asciiLower u).all isOctalDigit) = true := by
    intro octal
    simp only [Bool.and_eq_true, decide_eq_true_eq, beq_iff_eq] at octal
    obtain ⟨⟨long, head⟩, all⟩ := octal
    have digits := List.all_eq_true.mp all
    rw [eq_of_asciiLower_octal digits] at long head digits
    obtain ⟨v, rfl⟩ := List.head?_eq_some_iff.mp head
    obtain ⟨m, octal⟩ := exists_octal fun c mem => digits c (List.mem_cons_of_mem _ mem)
    have filled : v ≠ [] := by
      rintro rfl
      simp at long
    exact other v m filled octal rfl
  have read := lower.float? nil_mem_signs same
  rw [literal?, form, trim_of_visible visible, if_neg (not_suffix_of_marks filled marks),
    markedRadix?_of_marks marks]
  simp only [if_neg notOctal]
  exact congrArg Except.ok read

/-- Behind a minus sign a decimal is read with its sign, also one with a leading zero. -/
theorem literal?_negative {q : ℚ} {t u : Text} (form : t.filter (· != chr '_') = chr '-' :: u)
    (decimal : Decimal u q) {n : Nat} {k : Int} (same : (n : ℚ) * 10 ^ k = q) :
    literal? t = .ok (some (Double.ofDecimal true n k)) := by
  have visible : ∀ c ∈ chr '-' :: u, IsVisible c :=
    fun c mem => (decimal.isDecimalMark_signed minus_mem_signs c mem).isVisible
  have lower := decimal.asciiLower
  have marks : ∀ c ∈ chr '-' :: Text.asciiLower u, IsDecimalMark c :=
    lower.isDecimalMark_signed minus_mem_signs
  have read : float? (chr '-' :: Text.asciiLower u) = some (Double.ofDecimal true n k) :=
    lower.float? minus_mem_signs same
  have lowered : Text.asciiLower (chr '-' :: u) = chr '-' :: Text.asciiLower u := rfl
  have unlike : isOctalDigit (chr '-') = false := by decide
  rw [literal?, form, trim_of_visible visible, lowered,
    if_neg (not_suffix_of_marks (List.cons_ne_nil _ _) marks), markedRadix?_of_marks marks]
  simp [unlike, read]

/-- A literal of an exact integer is read as that integer. -/
theorem Spells.literal? {t : Text} {n : Nat} (h : Spells (t.filter (· != chr '_')) n)
    (small : n ≤ Double.exactBound) : ∃ x, literal? t = .ok (some x) ∧ x.value? = some (n : ℚ) := by
  generalize form : t.filter (· != chr '_') = u at h
  obtain ⟨x, whole, value⟩ := ofInteger_exact small
  have integer (read : Numeral.literal? t = (ofInteger n).map some) :
      ∃ x, Numeral.literal? t = .ok (some x) ∧ x.value? = some (n : ℚ) := by
    rw [whole] at read
    exact ⟨x, read, value⟩
  cases h with
  | marked known filled digits => exact integer (literal?_marked known form filled digits)
  | octal filled digits => exact integer (literal?_octal form filled digits)
  | decimal decimal other =>
    exact ⟨_, literal?_decimal form decimal other (k := 0) (by rw [zpow_zero, mul_one]),
      value?_ofDecimal false small⟩

/-- A single digit spells its value. -/
theorem spells_digit {n : Nat} (h : n < 10) : Spells (Text.ofNat n) n := by
  refine .decimal (decimal_ofNat n) ?_
  intro u m filled _ eq
  have single : (Text.ofNat n).length = 1 := by
    rw [Text.ofNat, Text.ofChars, Nat.toDigits_of_lt_base h]
    rfl
  rw [eq, List.length_cons] at single
  exact filled (List.length_eq_zero_iff.mp (Nat.succ.inj single))

end ParamSchema.Numeral
