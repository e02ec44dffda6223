import Mathlib.Data.List.TakeWhile
import ParamSchema.Numeral
import ParamSchema.Proofs.Double.Decimals
import ParamSchema.Proofs.Double.Exact

/-!
The grammar of decimal numerals. Digits of a radix denote a number by position (`Numeral.Digits`),
and a decimal numeral denotes a rational one (`Numeral.Decimal`). It is read as the double nearest
to what it denotes (`Numeral.Decimal.float?`); in particular the digits of an exact integer are read
as that integer (`Numeral.reduced?_ofInt`).
-/

namespace ParamSchema.Numeral

/-! ### Digits -/

/-- The digit of a value below a radix, in either letter case. -/
def IsDigit (radix : Nat) (c : CodePoint) (d : Nat) : Prop :=
  d < radix ∧ (c = chr (Nat.digitChar d) ∨ c = chr (Nat.digitChar d).toUpper)

/-- Digits of a radix denote a number by position. -/
inductive Digits (radix : Nat) : Text → Nat → Prop where
  | nil : Digits radix [] 0
  | snoc {t : Text} {n : Nat} {c : CodePoint} {d : Nat} :
      Digits radix t n → IsDigit radix c d → Digits radix (t ++ [c]) (n * radix + d)

/-- The ways to write a sign. -/
def signs (negative : Bool) : List Text := if negative then [txt "-"] else [[], txt "+"]

theorem nil_mem_signs : [] ∈ signs false := List.mem_cons_self

theorem plus_mem_signs : txt "+" ∈ signs false := List.mem_cons_of_mem _ List.mem_cons_self

theorem minus_mem_signs : txt "-" ∈ signs true := List.mem_cons_self

/-- A power of ten behind a decimal numeral. -/
inductive Power : Text → Int → Prop where
  | absent : Power [] 0
  | written {c : CodePoint} {negative : Bool} {sign t : Text} {n : Nat} :
      c ∈ txt "eE" → sign ∈ signs negative → t ≠ [] → Digits 10 t n →
        Power (c :: (sign ++ t)) (if negative then -(n : Int) else n)

/-- A decimal numeral and the rational number that it denotes. -/
inductive Decimal : Text → ℚ → Prop where
  | whole {w p : Text} {n : Nat} {k : Int} :
      w ≠ [] → Digits 10 w n → Power p k → Decimal (w ++ p) (n * 10 ^ k)
  | pointed {w f p : Text} {n : Nat} {k : Int} :
      w ++ f ≠ [] → Digits 10 (w ++ f) n → Power p k →
        Decimal (w ++ chr '.' :: (f ++ p)) (n * 10 ^ (k - f.length))

/-- What digits of a radix up to sixteen look like. -/
theorem IsDigit.appearance {radix : Nat} {c : CodePoint} {d : Nat} (h : IsDigit radix c d)
    (small : radix ≤ 16) : c.digitValue? 16 = some d ∧ 0x30 ≤ c.val ∧ c.val ≤ 0x66 ∧
      c.val ≠ 0x5F ∧ c.asciiLower = chr (Nat.digitChar d) := by
  have all : ∀ d : Fin 16, ∀ c ∈ [chr (Nat.digitChar d), chr (Nat.digitChar d).toUpper],
      c.digitValue? 16 = some d.val ∧ 0x30 ≤ c.val ∧ c.val ≤ 0x66 ∧ c.val ≠ 0x5F ∧
        c.asciiLower = chr (Nat.digitChar d) := by decide
  obtain ⟨below, form⟩ := h
  exact all ⟨d, by omega⟩ c (by simpa using form)

theorem IsDigit.digitValue? {radix : Nat} {c : CodePoint} {d : Nat} (h : IsDigit radix c d)
    (small : radix ≤ 16) : c.digitValue? radix = some d := by
  have value := (h.appearance small).1
  rw [CodePoint.digitValue?, Option.filter_eq_some_iff] at value ⊢
  exact ⟨value.1, by simpa using h.1⟩

theorem IsDigit.isAsciiDigit {c : CodePoint} {d : Nat} (h : IsDigit 10 c d) :
    c.isAsciiDigit = true := by
  have all : ∀ d : Fin 10, ∀ c ∈ [chr (Nat.digitChar d), chr (Nat.digitChar d).toUpper],
      c.isAsciiDigit = true := by decide
  exact all ⟨d, h.1⟩ c (by simpa using h.2)

theorem Digits.of_mem {radix n : Nat} {t : Text} (h : Digits radix t n) {c : CodePoint}
    (mem : c ∈ t) : ∃ d, IsDigit radix c d := by
  induction h with
  | nil => cases mem
  | snoc _ digit ih =>
    rcases List.mem_append.mp mem with before | last
    · exact ih before
    · exact ⟨_, List.mem_singleton.mp last ▸ digit⟩

theorem Digits.append {radix m n : Nat} {s t : Text} (hs : Digits radix s m)
    (ht : Digits radix t n) : Digits radix (s ++ t) (m * radix ^ t.length + n) := by
  induction ht with
  | nil => simpa using hs
  | snoc _ digit ih =>
    have longer := ih.snoc digit
    rw [List.append_assoc] at longer
    convert longer using 1
    rw [List.length_append, List.length_singleton]
    ring

theorem Digits.of_snoc {radix n : Nat} {t : Text} {c : CodePoint} (h : Digits radix (t ++ [c]) n) :
    ∃ m d, Digits radix t m ∧ IsDigit radix c d ∧ n = m * radix + d := by
  generalize eq : t ++ [c] = u at h
  cases h with
  | nil => simp at eq
  | snoc before digit =>
    obtain ⟨rfl, last⟩ := List.append_inj' eq rfl
    cases last
    exact ⟨_, _, before, digit, rfl⟩

theorem Digits.of_append {radix n : Nat} {s t : Text} (h : Digits radix (s ++ t) n) :
    ∃ m k, Digits radix s m ∧ Digits radix t k ∧ n = m * radix ^ t.length + k := by
  induction t using List.reverseRecOn generalizing n with
  | nil => exact ⟨n, 0, by simpa using h, .nil, by simp⟩
  | append_singleton t c ih =>
    rw [← List.append_assoc] at h
    obtain ⟨_, d, before, digit, rfl⟩ := h.of_snoc
    obtain ⟨m, k, hs, ht, rfl⟩ := ih before
    refine ⟨m, k * radix + d, hs, ht.snoc digit, ?_⟩
    rw [List.length_append, List.length_singleton]
    ring

theorem Digits.digits? {radix n : Nat} {t : Text} (h : Digits radix t n) (small : radix ≤ 16) :
    digits? radix t = some n := by
  induction h with
  | nil => rfl
  | snoc _ digit ih =>
    rw [Numeral.digits?] at ih ⊢
    rw [List.foldl_append, ih]
    simp [digit.digitValue? small]

/-- Digits denote one number. -/
theorem Digits.unique {radix m n : Nat} {t : Text} (h : Digits radix t m) (h' : Digits radix t n)
    (small : radix ≤ 16) : m = n :=
  Option.some.inj ((h.digits? small).symm.trans (h'.digits? small))

theorem ofNat_ne_nil (n : Nat) : Text.ofNat n ≠ [] := by
  simp [Text.ofNat, Text.ofChars, Nat.toDigits_ne_nil]

theorem digits_ofNat (n : Nat) : Digits 10 (Text.ofNat n) n := by
  induction n using Nat.strongRecOn with
  | ind n ih =>
    by_cases small : n < 10
    · have digit : Digits 10 ([] ++ [chr (Nat.digitChar n)]) (0 * 10 + n) :=
        Digits.nil.snoc ⟨small, .inl rfl⟩
      rw [Text.ofNat, Text.ofChars, Nat.toDigits_of_lt_base small]
      simpa using digit
    · have digits := (ih (n / 10) (by omega)).snoc
        (⟨Nat.mod_lt n (by decide), .inl rfl⟩ : IsDigit 10 (chr (Nat.digitChar (n % 10))) (n % 10))
      rw [Nat.div_add_mod'] at digits
      rw [Text.ofNat, Text.ofChars, Nat.toDigits_of_base_le (by decide) (not_lt.mp small),
        List.map_append]
      exact digits

theorem digits_zeros {radix : Nat} (h : 0 < radix) (k : Nat) :
    Digits radix (List.replicate k (chr '0')) 0 := by
  induction k with
  | zero => exact .nil
  | succ k ih =>
    have zero : IsDigit radix (chr '0') 0 := ⟨h, .inl rfl⟩
    rw [List.replicate_succ']
    simpa using ih.snoc zero

/-! ### Visible texts -/

/-- A character of ASCII that leaves a mark. -/
def IsVisible (c : CodePoint) : Prop := 0x21 ≤ c.val ∧ c.val ≤ 0x7E

instance (c : CodePoint) : Decidable (IsVisible c) := inferInstanceAs (Decidable (_ ∧ _))

theorem IsVisible.isBlank {c : CodePoint} (h : IsVisible c) : c.isBlank = false := by
  obtain ⟨low, high⟩ := h
  simp only [CodePoint.isBlank, Bool.or_eq_false_iff, Bool.and_eq_false_iff,
    decide_eq_false_iff_not, beq_eq_false_iff_ne]
  omega

theorem trim_of_ends {t : Text} (first : ∀ c ∈ t.head?, c.isBlank = false)
    (last : ∀ c ∈ t.getLast?, c.isBlank = false) : Text.trim t = t := by
  have start : Text.trimStart t = t := by
    cases t with
    | nil => rfl
    | cons c t =>
      rw [Text.trimStart, List.dropWhile_cons_of_neg]
      rw [first c rfl]
      decide
  have stop : t.reverse.dropWhile CodePoint.isBlank = t.reverse := by
    cases eq : t.reverse with
    | nil => rfl
    | cons c u =>
      have mem : c ∈ t.getLast? := by
        rw [List.getLast?_eq_head?_reverse, eq]
        rfl
      rw [List.dropWhile_cons_of_neg]
      rw [last c mem]
      decide
  rw [Text.trim, start, Text.trimEnd, Text.dropEndWhile, stop, List.reverse_reverse]

theorem trim_of_visible {t : Text} (h : ∀ c ∈ t, IsVisible c) : Text.trim t = t :=
  trim_of_ends (fun c head => (h c (List.mem_of_head? head)).isBlank)
    fun c last => (h c (List.mem_of_getLast? last)).isBlank

theorem plain_of_visible {t : Text} (h : ∀ c ∈ t, IsVisible c) : Text.plain t = t := by
  rw [Text.plain]
  conv_rhs => rw [← List.map_id t]
  apply List.map_congr_left
  intro c mem
  have high := (h c mem).2
  rw [CodePoint.plain, if_pos (by omega)]
  rfl

/-! ### Decimal numerals -/

/-- The characters of decimal numerals. -/
def IsDecimalMark (c : CodePoint) : Prop := c.isAsciiDigit = true ∨ c ∈ txt ".eE+-"

theorem IsDecimalMark.isVisible {c : CodePoint} (h : IsDecimalMark c) : IsVisible c := by
  rcases h with digit | mark
  · simp only [CodePoint.isAsciiDigit, Bool.and_eq_true, decide_eq_true_eq] at digit
    rw [IsVisible]
    omega
  · revert c
    decide

theorem Digits.isDecimalMark {n : Nat} {t : Text} (h : Digits 10 t n) {c : CodePoint}
    (mem : c ∈ t) : IsDecimalMark c := by
  obtain ⟨d, digit⟩ := h.of_mem mem
  exact .inl digit.isAsciiDigit

theorem isDecimalMark_of_sign {negative : Bool} {w : Text} (h : w ∈ signs negative) {c : CodePoint}
    (mem : c ∈ w) : IsDecimalMark c := by
  have marks : ∀ negative, ∀ w ∈ signs negative, ∀ c ∈ w, c ∈ txt ".eE+-" := by decide
  exact .inr (marks negative w h c mem)

theorem Power.isDecimalMark {t : Text} {k : Int} (h : Power t k) {c : CodePoint} (mem : c ∈ t) :
    IsDecimalMark c := by
  have letters : ∀ c ∈ txt "eE", c ∈ txt ".eE+-" := by decide
  cases h with
  | absent => cases mem
  | written letter sign _ digits =>
    rcases List.mem_cons.mp mem with rfl | mem
    · exact .inr (letters _ letter)
    · rcases List.mem_append.mp mem with mem | mem
      · exact isDecimalMark_of_sign sign mem
      · exact digits.isDecimalMark mem

theorem Decimal.isDecimalMark {t : Text} {q : ℚ} (h : Decimal t q) {c : CodePoint} (mem : c ∈ t) :
    IsDecimalMark c := by
  cases h with
  | whole _ digits power =>
    rcases List.mem_append.mp mem with mem | mem
    · exact digits.isDecimalMark mem
    · exact power.isDecimalMark mem
  | pointed _ digits power =>
    rcases List.mem_append.mp mem with mem | mem
    · exact digits.isDecimalMark (List.mem_append_left _ mem)
    · rcases List.mem_cons.mp mem with rfl | mem
      · exact .inr (by decide)
      · rcases List.mem_append.mp mem with mem | mem
        · exact digits.isDecimalMark (List.mem_append_right _ mem)
        · exact power.isDecimalMark mem

theorem Decimal.isDecimalMark_signed {t : Text} {q : ℚ} (h : Decimal t q) {negative : Bool}
    {w : Text} (sign : w ∈ signs negative) : ∀ c ∈ w ++ t, IsDecimalMark c := by
  intro c mem
  rcases List.mem_append.mp mem with mem | mem
  · exact isDecimalMark_of_sign sign mem
  · exact h.isDecimalMark mem

/-- A decimal numeral begins with a digit or with the point. -/
theorem Decimal.exists_cons {t : Text} {q : ℚ} (h : Decimal t q) :
    ∃ c u, t = c :: u ∧ (c.isAsciiDigit = true ∨ c = chr '.') := by
  cases h with
  | @whole w p _ _ filled digits power =>
    obtain ⟨c, w, rfl⟩ := List.exists_cons_of_ne_nil filled
    obtain ⟨d, digit⟩ := digits.of_mem List.mem_cons_self
    exact ⟨c, w ++ p, rfl, .inl digit.isAsciiDigit⟩
  | @pointed w f p _ _ filled digits power =>
    cases w with
    | nil => exact ⟨chr '.', f ++ p, rfl, .inr rfl⟩
    | cons c w =>
      obtain ⟨d, digit⟩ := digits.of_mem (c := c) (by simp)
      exact ⟨c, _, rfl, .inl digit.isAsciiDigit⟩

/-- A sign is read in front of what begins with a digit or with the point. -/
theorem sign_append {negative : Bool} {w : Text} (h : w ∈ signs negative) {c : CodePoint} (u : Text)
    (begins : c.isAsciiDigit = true ∨ c = chr '.') :
    sign (w ++ c :: u) = (negative, c :: u) := by
  have unsigned : c ≠ chr '-' ∧ c ≠ chr '+' := by
    constructor
    · rintro rfl
      exact absurd begins (by decide)
    · rintro rfl
      exact absurd begins (by decide)
  cases negative with
  | true =>
    rw [List.mem_singleton.mp h]
    rfl
  | false =>
    rcases List.mem_pair.mp h with rfl | rfl
    · simp [sign, unsigned.1, unsigned.2]
    · rfl

theorem Power.exponent? {t : Text} {k : Int} (h : Power t k) : exponent? t = some k := by
  have letters : ∀ c ∈ txt "eE", (c.asciiLower == chr 'e') = true := by decide
  cases h with
  | absent => rfl
  | written letter sign filled digits =>
    obtain ⟨c, t, rfl⟩ := List.exists_cons_of_ne_nil filled
    obtain ⟨d, digit⟩ := digits.of_mem List.mem_cons_self
    rw [Numeral.exponent?, if_pos (letters _ letter), sign_append sign t (.inl digit.isAsciiDigit)]
    simp [digits.digits? (by decide)]

theorem Power.stops {t : Text} {k : Int} (h : Power t k) :
    ∀ c ∈ t.head?, c.isAsciiDigit = false ∧ c ≠ chr '.' := by
  have letters : ∀ c ∈ txt "eE", c.isAsciiDigit = false ∧ c ≠ chr '.' := by decide
  cases h with
  | absent => nofun
  | written letter =>
    intro c head
    exact letters c (Option.some.inj head ▸ letter)

theorem takeWhile_digits {n : Nat} {t : Text} (h : Digits 10 t n) (rest : Text)
    (stop : ∀ c ∈ rest.head?, c.isAsciiDigit = false) :
    (t ++ rest).takeWhile CodePoint.isAsciiDigit = t ∧
      (t ++ rest).dropWhile CodePoint.isAsciiDigit = rest := by
  have digits : ∀ c ∈ t, c.isAsciiDigit = true := by
    intro c mem
    obtain ⟨d, digit⟩ := h.of_mem mem
    exact digit.isAsciiDigit
  rw [List.takeWhile_append_of_pos digits, List.dropWhile_append_of_pos digits]
  cases rest with
  | nil => simp
  | cons c rest => simp [stop c rfl]

/-- A decimal numeral is read as digits and a power of ten with the number it denotes. -/
theorem Decimal.decimal? {t : Text} {q : ℚ} (h : Decimal t q) :
    ∃ (n : Nat) (k : Int), decimal? t = some (n, k) ∧ (n : ℚ) * 10 ^ k = q := by
  cases h with
  | @whole w p n k filled digits power =>
    obtain ⟨taken, left⟩ := takeWhile_digits digits p fun c mem => (power.stops c mem).1
    refine ⟨n, k, ?_, rfl⟩
    rw [Numeral.decimal?, taken, left]
    cases p with
    | nil => simp [filled, digits.digits? (by decide), power.exponent?]
    | cons c p =>
      have other : c ≠ chr '.' := (power.stops c rfl).2
      simp [other, filled, digits.digits? (by decide), power.exponent?]
  | @pointed w f p n k filled digits power =>
    obtain ⟨_, _, before, behind, -⟩ := digits.of_append
    obtain ⟨taken, left⟩ := takeWhile_digits before (chr '.' :: (f ++ p))
      fun c mem => Option.some.inj mem ▸ rfl
    obtain ⟨taken', left'⟩ := takeWhile_digits behind p fun c mem => (power.stops c mem).1
    refine ⟨n, k - f.length, ?_, rfl⟩
    rw [Numeral.decimal?, taken, left]
    have point : (chr '.' == chr '.') = true := rfl
    simp only [point, if_true, taken', left', digits.digits? (by decide), power.exponent?]
    simp [List.append_eq_nil_iff.not.mp filled]

theorem asciiLower_of_begins {c : CodePoint} (h : c.isAsciiDigit = true ∨ c = chr '.') :
    c.asciiLower = c := by
  rcases h with digit | rfl
  · simp only [CodePoint.isAsciiDigit, Bool.and_eq_true, decide_eq_true_eq] at digit
    rw [CodePoint.asciiLower, dif_neg (by omega)]
  · rfl

theorem asciiLower_ne_word {c : CodePoint} (h : c.isAsciiDigit = true ∨ c = chr '.') (u : Text) :
    ∀ w ∈ [txt "inf", txt "infinity", txt "nan"], (Text.asciiLower (c :: u) == w) = false := by
  have heads : ∀ w ∈ [txt "inf", txt "infinity", txt "nan"],
      ∀ d ∈ w.head?, d.isAsciiDigit = false ∧ d ≠ chr '.' := by decide
  intro w mem
  rw [beq_eq_false_iff_ne]
  rintro rfl
  have head : c ∈ (Text.asciiLower (c :: u)).head? := by
    rw [Text.asciiLower, List.map_cons, asciiLower_of_begins h]
    rfl
  obtain ⟨other, other'⟩ := heads _ mem c head
  rcases h with digit | rfl
  · rw [other] at digit
    cases digit
  · exact other' rfl

/-- A decimal numeral with a sign is read as the nearest double. -/
theorem Decimal.float? {t : Text} {q : ℚ} (h : Decimal t q) {negative : Bool} {w : Text}
    (sign : w ∈ signs negative) {n : Nat} {k : Int} (same : (n : ℚ) * 10 ^ k = q) :
    float? (w ++ t) = some (Double.ofDecimal negative n k) := by
  have visible : ∀ c ∈ w ++ t, IsVisible c :=
    fun c mem => (h.isDecimalMark_signed sign c mem).isVisible
  obtain ⟨c, u, rfl, begins⟩ := h.exists_cons
  obtain ⟨n', k', read, denotes⟩ := h.decimal?
  have words := asciiLower_ne_word begins u
  rw [Numeral.float?, plain_of_visible visible, trim_of_visible visible, sign_append sign u begins]
  simp only [words (txt "inf") (by simp), words (txt "infinity") (by simp),
    words (txt "nan") (by simp), read, Bool.or_self]
  simp [Double.ofDecimal_congr negative (denotes.trans same.symm)]

theorem Decimal.reduced? {t : Text} {q : ℚ} (h : Decimal t q) {negative : Bool} {w : Text}
    (sign : w ∈ signs negative) {n : Nat} {k : Int} (same : (n : ℚ) * 10 ^ k = q)
    (finite : (Double.ofDecimal negative n k).isFinite = true) :
    reduced? (w ++ t) = .ok (some (Double.ofDecimal negative n k)) := by
  have visible : ∀ c ∈ w ++ t, IsVisible c :=
    fun c mem => (h.isDecimalMark_signed sign c mem).isVisible
  have plain : ¬ ((w ++ t).isEmpty || (w ++ t).contains (chr '_')) = true := by
    obtain ⟨c, u, rfl, -⟩ := h.exists_cons
    have marks : chr '_' ∉ w ++ c :: u := by
      intro mem
      exact absurd (h.isDecimalMark_signed sign _ mem) (by rw [IsDecimalMark]; decide)
    simp [marks]
  rw [Numeral.reduced?, trim_of_visible visible, if_neg plain, h.float? sign same]
  simp [finite]

theorem value?_ofDecimal (s : Bool) {n : Nat} (h : n ≤ Double.exactBound) :
    (Double.ofDecimal s n 0).value? = some (Double.withSign s n) := by
  obtain ⟨m, e, canonical, form⟩ := Double.exists_canonical h
  rw [Double.ofDecimal_exact s canonical (by rw [zpow_zero, mul_one, form]), Double.value?, form]

theorem decimal_ofNat (n : Nat) : Decimal (Text.ofNat n) n := by
  simpa using Decimal.whole (ofNat_ne_nil n) (digits_ofNat n) .absent

/-- The digits of an exact integer are read as the integer. -/
theorem reduced?_ofInt {i : Int} (h : i.natAbs ≤ Double.exactBound) :
    ∃ x, reduced? (Text.ofInt i) = .ok (some x) ∧ x.value? = some (i : ℚ) := by
  have read {n : Nat} {negative : Bool} {w : Text} (sign : w ∈ signs negative)
      (small : n ≤ Double.exactBound) : ∃ x, reduced? (w ++ Text.ofNat n) = .ok (some x) ∧
        x.value? = some (Double.withSign negative n) := by
    have value := value?_ofDecimal negative small
    exact ⟨_, (decimal_ofNat n).reduced? sign (k := 0) (by rw [zpow_zero, mul_one])
      (Double.isFinite_of_value? value), value⟩
  cases i with
  | ofNat n => exact read nil_mem_signs h
  | negSucc n =>
    obtain ⟨x, reads, value⟩ := read minus_mem_signs h
    refine ⟨x, reads, value.trans ?_⟩
    simp [Double.withSign, Int.cast_negSucc]

end ParamSchema.Numeral
