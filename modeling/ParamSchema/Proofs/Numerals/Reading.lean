import ParamSchema.Proofs.Numerals.Decimals

/-!
What the readers of numerals accept. Digits, powers of ten and decimals are read only from texts of
the grammar (`Numeral.decimal_of_decimal?`). Hence a text that denotes a number has one of two
forms: a decimal numeral with a sign, or digits behind the mark of a radix
(`Numeral.form_of_reduced?`).
-/

namespace ParamSchema.Numeral

/-! ### Decimal numerals -/

theorem eq_of_val {c c' : CodePoint} (h : c.val = c'.val) : c = c' := by
  cases c
  cases c'
  congr

theorem isDigit_of_digitValue? {radix d : Nat} {c : CodePoint} (small : radix ≤ 16)
    (h : c.digitValue? radix = some d) : IsDigit radix c d := by
  have digits : ∀ d < 10, (chr (Nat.digitChar d)).val = d + 0x30 := by decide
  have letters : ∀ d < 16, 10 ≤ d → (chr (Nat.digitChar d)).val = d + 0x57 ∧
      (chr (Nat.digitChar d).toUpper).val = d + 0x37 := by decide
  rw [CodePoint.digitValue?, Option.filter_eq_some_iff, decide_eq_true_eq] at h
  obtain ⟨value, below⟩ := h
  refine ⟨below, ?_⟩
  split_ifs at value with digit lower upper
  · rw [CodePoint.isAsciiDigit, Bool.and_eq_true, decide_eq_true_eq, decide_eq_true_eq] at digit
    cases value
    refine .inl (eq_of_val ?_)
    rw [digits _ (by omega)]
    omega
  · rw [Bool.and_eq_true, decide_eq_true_eq, decide_eq_true_eq] at lower
    cases value
    refine .inl (eq_of_val ?_)
    rw [(letters _ (by omega) (Nat.le_add_left _ _)).1]
    omega
  · rw [Bool.and_eq_true, decide_eq_true_eq, decide_eq_true_eq] at upper
    cases value
    refine .inr (eq_of_val ?_)
    rw [(letters _ (by omega) (Nat.le_add_left _ _)).2]
    omega

theorem digits_of_digits? {radix n : Nat} {t : Text} (small : radix ≤ 16)
    (h : digits? radix t = some n) : Digits radix t n := by
  induction t using List.reverseRecOn generalizing n with
  | nil =>
    cases h
    exact .nil
  | append_singleton t c ih =>
    rw [digits?, List.foldl_append] at h
    obtain ⟨m, before, h⟩ := Option.bind_eq_some_iff.mp h
    obtain ⟨d, digit, h⟩ := Option.bind_eq_some_iff.mp h
    cases h
    exact (ih before).snoc (isDigit_of_digitValue? small digit)

/-- What stands in front of the rest of a text is its sign. -/
theorem exists_sign (t : Text) : ∃ w ∈ signs (sign t).1, t = w ++ (sign t).2 := by
  cases t with
  | nil => exact ⟨[], nil_mem_signs, rfl⟩
  | cons c t =>
    rw [sign]
    split_ifs with minus plus
    · exact ⟨txt "-", minus_mem_signs, congrArg (· :: t) (eq_of_beq minus)⟩
    · exact ⟨txt "+", plus_mem_signs, congrArg (· :: t) (eq_of_beq plus)⟩
    · exact ⟨[], nil_mem_signs, rfl⟩

theorem mem_of_asciiLower_e {c : CodePoint} (h : c.asciiLower = chr 'e') : c ∈ txt "eE" := by
  have value := congrArg CodePoint.val h
  rw [CodePoint.asciiLower] at value
  split_ifs at value with upper
  · have : c = chr 'E' := eq_of_val (Nat.add_right_cancel value)
    exact this ▸ by decide
  · have : c = chr 'e' := eq_of_val value
    exact this ▸ by decide

theorem signs_cases {negative : Bool} {w : Text} (h : w ∈ signs negative) :
    w = [] ∨ ∃ c ∈ txt "+-", w = [c] := by
  revert h w negative
  decide

theorem power_of_exponent? {t : Text} {k : Int} (h : exponent? t = some k) : Power t k := by
  cases t with
  | nil =>
    cases h
    exact .absent
  | cons c t =>
    obtain ⟨w, known, split⟩ := exists_sign t
    rw [exponent?] at h
    split_ifs at h with letter
    generalize sign t = signed at h known split
    obtain ⟨negative, rest⟩ := signed
    obtain ⟨filled, h⟩ := Option.ite_none_left_eq_some.mp h
    obtain ⟨_, cast, rfl⟩ := Option.map_eq_some_iff.mp h
    obtain ⟨n, read, ⟨⟩⟩ := Option.bind_eq_some_iff.mp cast
    rw [split]
    exact .written (mem_of_asciiLower_e (eq_of_beq letter)) known (by simpa using filled)
      (digits_of_digits? (by decide) read)

theorem decimal_of_decimal? {t : Text} {n : Nat} {k : Int} (h : decimal? t = some (n, k)) :
    Decimal t (n * 10 ^ k) := by
  have split := List.takeWhile_append_dropWhile (p := CodePoint.isAsciiDigit) (l := t)
  have read {w f p : Text} (h : (if (w ++ f).isEmpty then none
      else (digits? 10 (w ++ f)).bind fun n => (exponent? p).bind fun k =>
        some (n, k - f.length)) = some (n, k)) :
      w ++ f ≠ [] ∧ Digits 10 (w ++ f) n ∧ ∃ k', Power p k' ∧ k' - f.length = k := by
    obtain ⟨filled, h⟩ := Option.ite_none_left_eq_some.mp h
    obtain ⟨_, digits, h⟩ := Option.bind_eq_some_iff.mp h
    obtain ⟨k', power, ⟨⟩⟩ := Option.bind_eq_some_iff.mp h
    exact ⟨by simpa using filled, digits_of_digits? (by decide) digits, k',
      power_of_exponent? power, rfl⟩
  rw [decimal?] at h
  generalize t.takeWhile CodePoint.isAsciiDigit = w at h split
  generalize t.dropWhile CodePoint.isAsciiDigit = rest at h split
  cases rest with
  | nil =>
    obtain ⟨filled, digits, k', power, rfl⟩ := read (f := []) h
    rw [List.append_nil] at filled digits
    rw [← split, List.length_nil, Nat.cast_zero, sub_zero]
    exact .whole filled digits power
  | cons c tail =>
    by_cases point : (c == chr '.') = true
    · simp only [point, if_true] at h
      obtain ⟨filled, digits, k', power, rfl⟩ := read h
      have tailSplit := List.takeWhile_append_dropWhile (p := CodePoint.isAsciiDigit) (l := tail)
      have pointed := Decimal.pointed filled digits power
      rwa [tailSplit, ← eq_of_beq point, split] at pointed
    · simp only [point] at h
      obtain ⟨filled, digits, k', power, rfl⟩ := read (f := []) h
      rw [List.append_nil] at filled digits
      rw [← split, List.length_nil, Nat.cast_zero, sub_zero]
      exact .whole filled digits power

/-- Floating point numerals without their sign: decimals, and words for what is not finite. -/
inductive Float (negative : Bool) : Text → Double → Prop where
  | decimal {t : Text} {n : Nat} {k : Int} :
      Decimal t (n * 10 ^ k) → Float negative t (.ofDecimal negative n k)
  | infinite {t : Text} :
      Text.asciiLower t ∈ [txt "inf", txt "infinity"] → Float negative t (.infinity negative)
  | undefined {t : Text} : Text.asciiLower t = txt "nan" → Float negative t .nan

theorem float_of_float? {t : Text} {x : Double} (h : float? t = some x) :
    ∃ negative, ∃ w ∈ signs negative, ∃ u, Text.trim t.plain = w ++ u ∧ Float negative u x := by
  obtain ⟨w, known, split⟩ := exists_sign (Text.trim t.plain)
  rw [float?] at h
  generalize sign (Text.trim t.plain) = signed at h known split
  obtain ⟨negative, u⟩ := signed
  refine ⟨negative, w, known, u, split, ?_⟩
  dsimp only at h
  split_ifs at h with infinite undefined
  · cases h
    rw [Bool.or_eq_true, beq_iff_eq, beq_iff_eq] at infinite
    exact .infinite (List.mem_pair.mpr infinite)
  · cases h
    exact .undefined (eq_of_beq undefined)
  · obtain ⟨⟨n, k⟩, read, rfl⟩ := Option.map_eq_some_iff.mp h
    exact .decimal (decimal_of_decimal? read)

/-! ### Digits behind the mark of a radix -/

theorem flatten_splitOn (c : CodePoint) (t : Text) :
    (Text.splitOn c t).flatten = t.filter (· != c) ∧ Text.splitOn c t ≠ [] := by
  induction t with
  | nil => simp [Text.splitOn]
  | cons d t ih =>
    obtain ⟨flat, filled⟩ := ih
    obtain ⟨part, parts, eq⟩ := List.exists_cons_of_ne_nil filled
    rw [eq, List.flatten_cons] at flat
    rw [Text.splitOn, eq]
    by_cases same : d = c
    · subst same
      simp [flat]
    · simp [same, flat]

/-- The characters of numerals with the mark of a radix. -/
def IsRadixMark (c : CodePoint) : Prop := c.asciiLower ∈ txt "xob_" ∨ ∃ d, IsDigit 16 c d

theorem isRadixMark_of_grouped? {radix n : Nat} {t : Text} (small : radix ≤ 16)
    (h : grouped? radix t = some n) : ∀ c ∈ t, IsRadixMark c := by
  intro c mem
  by_cases underscore : c = chr '_'
  · exact .inl (underscore ▸ by decide)
  · have digits := digits_of_digits? small (Option.ite_none_left_eq_some.mp h).2
    rw [(flatten_splitOn _ _).1] at digits
    obtain ⟨d, below, form⟩ := digits.of_mem (List.mem_filter.mpr ⟨mem, by simpa using underscore⟩)
    exact .inr ⟨d, by omega, form⟩

theorem isRadixMark_of_dropMark {radix : Nat} {t : Text}
    (h : ∀ c ∈ dropMark radix t, IsRadixMark c) : ∀ c ∈ t, IsRadixMark c := by
  have known {radix : Nat} {mark : CodePoint} (h : radixMark radix = some mark) :
      mark ∈ txt "xob_" := by
    unfold radixMark at h
    split at h
    case h_4 => cases h
    all_goals exact Option.some.inj h ▸ by decide
  have underscore : IsRadixMark (chr '_') := .inl (by decide)
  unfold dropMark at h
  split at h
  case h_1 mark zero letter rest announced =>
    split at h
    case isTrue cond =>
      rw [Bool.and_eq_true, beq_iff_eq, beq_iff_eq] at cond
      have behind : ∀ c ∈ rest, IsRadixMark c := by
        cases rest with
        | nil => exact h
        | cons d rest =>
          dsimp only at h
          split_ifs at h with first
          · exact List.forall_mem_cons.mpr ⟨eq_of_beq first ▸ underscore, h⟩
          · exact h
      refine List.forall_mem_cons.mpr ⟨.inr ⟨0, by decide, .inl cond.1⟩, ?_⟩
      exact List.forall_mem_cons.mpr ⟨.inl (cond.2 ▸ known announced), behind⟩
    case isFalse => exact h
  case h_2 => exact h

theorem isRadixMark_of_integer? {radix : Nat} {t : Text} {i : Int} (small : radix ≤ 16)
    (h : integer? radix t = some i) : ∃ negative, ∃ w ∈ signs negative, ∃ u,
      Text.trim t.plain = w ++ u ∧ ∀ c ∈ u, IsRadixMark c := by
  obtain ⟨w, known, split⟩ := exists_sign (Text.trim t.plain)
  obtain ⟨n, read, -⟩ := Option.map_eq_some_iff.mp h
  obtain ⟨n, read, -⟩ := Option.bind_eq_some_iff.mp read
  exact ⟨_, w, known, _, split, isRadixMark_of_dropMark (isRadixMark_of_grouped? small read)⟩

/-! ### Texts that denote numbers -/

theorem mem_dropWhile {p : CodePoint → Bool} {c : CodePoint} {t : Text} (mem : c ∈ t)
    (h : p c = false) : c ∈ t.dropWhile p := by
  rw [← List.takeWhile_append_dropWhile (p := p) (l := t), List.mem_append] at mem
  refine mem.resolve_left fun taken => ?_
  rw [List.mem_takeWhile_imp taken] at h
  cases h

theorem mem_trim {c : CodePoint} {t : Text} (mem : c ∈ t) (h : c.isBlank = false) :
    c ∈ Text.trim t := by
  rw [Text.trim, Text.trimEnd, Text.dropEndWhile, List.mem_reverse]
  exact mem_dropWhile (List.mem_reverse.mpr (mem_dropWhile mem h)) h

theorem head?_trim {c : CodePoint} (h : c.isBlank = false) (t : Text) :
    (Text.trim (c :: t)).head? = some c := by
  have start : Text.trimStart (c :: t) = c :: t := List.dropWhile_cons_of_neg (by simp [h])
  rw [Text.trim, start, Text.trimEnd, Text.dropEndWhile, List.reverse_cons, List.dropWhile_append]
  split
  · simp [h]
  · simp

theorem markedRadix?_mem {t : Text} {radix : Nat} (h : markedRadix? t = some radix) :
    radix ∈ [16, 8, 2] ∧ t.head? = some (chr '0') := by
  unfold markedRadix? at h
  split at h
  case h_1 zero letter rest =>
    split_ifs at h with first
    exact ⟨List.mem_of_find?_eq_some h, congrArg some (eq_of_beq first)⟩
  case h_2 => cases h

theorem isFinite_of_ofInteger {n : Nat} {x : Double} (h : ofInteger n = .ok x) :
    x.isFinite = true := by
  rw [ofInteger] at h
  rcases Double.ofRatio_cases false n 1 with finite | infinite
  · rw [Double.ofNat] at h
    generalize Double.ofRatio false n 1 = y at h finite
    cases y with
    | finite =>
      cases h
      rfl
    | infinity => cases finite
    | nan => cases finite
  · rw [Double.ofNat, infinite] at h
    cases h

/-- The ways to denote a finite number: a decimal numeral with a sign, and digits behind the mark of
a radix. -/
inductive Denotes (t : Text) : Double → Prop where
  | decimal {negative : Bool} {w u : Text} {n : Nat} {k : Int} :
      w ∈ signs negative → Text.trim t.plain = w ++ u → Decimal u (n * 10 ^ k) →
        (Double.ofDecimal negative n k).isFinite = true →
          Denotes t (.ofDecimal negative n k)
  | marked {radix : Nat} {x : Double} :
      float? t = none → markedRadix? t = some radix → marked? radix t = .ok (some x) → Denotes t x

theorem denotes_of_reduced? {t : Text} {x : Double} (h : reduced? t = .ok (some x)) :
    chr '_' ∉ Text.trim t ∧ Denotes (Text.trim t) x := by
  rw [reduced?] at h
  split at h
  case isTrue => cases h
  case isFalse unread =>
  rw [Bool.or_eq_true, not_or, List.contains_iff_mem] at unread
  refine ⟨unread.2, ?_⟩
  cases float : float? (Text.trim t) with
  | none =>
    simp only [float] at h
    split at h
    case h_1 radix announced => exact .marked float announced h
    case h_2 => cases h
  | some y =>
    simp only [float, Except.ok.injEq] at h
    obtain ⟨finite, ⟨⟩⟩ := Option.ite_none_right_eq_some.mp h
    obtain ⟨negative, w, sign, u, split, form⟩ := float_of_float? float
    cases form with
    | decimal decimal => exact .decimal sign split decimal finite
    | infinite => cases finite
    | undefined => cases finite

theorem exists_integer_of_marked? {radix : Nat} {t : Text} {x : Double}
    (h : marked? radix t = .ok (some x)) :
    ∃ i : Int, integer? radix t = some i ∧ ofInteger i.natAbs = .ok x := by
  unfold marked? at h
  split at h
  case h_1 => cases h
  case h_2 i read =>
    refine ⟨i, read, ?_⟩
    cases whole : ofInteger i.natAbs with
    | error =>
      rw [whole] at h
      cases h
    | ok y =>
      rw [whole] at h
      cases h
      rfl

theorem Denotes.isFinite {t : Text} {x : Double} (h : Denotes t x) : x.isFinite = true := by
  cases h with
  | decimal _ _ _ finite => exact finite
  | marked _ _ read =>
    obtain ⟨i, -, whole⟩ := exists_integer_of_marked? read
    exact isFinite_of_ofInteger whole

theorem isRadixMark_of_marked? {radix : Nat} {t : Text} {x : Double}
    (announced : markedRadix? t = some radix) (read : marked? radix t = .ok (some x)) :
    ∀ c ∈ Text.trim t.plain, IsRadixMark c := by
  have small : ∀ radix ∈ [16, 8, 2], radix ≤ 16 := by decide
  obtain ⟨known, head⟩ := markedRadix?_mem announced
  obtain ⟨i, integer, -⟩ := exists_integer_of_marked? read
  obtain ⟨negative, w, sign, u, split, marks⟩ := isRadixMark_of_integer? (small _ known) integer
  obtain ⟨rest, rfl⟩ := List.head?_eq_some_iff.mp head
  have first : (w ++ u).head? = some (chr '0') := by
    rw [← split]
    exact head?_trim (by decide) (Text.plain rest)
  -- a numeral that begins with a zero has no sign
  have unsigned : w = [] := by
    refine (signs_cases sign).resolve_right ?_
    rintro ⟨c, mem, rfl⟩
    rw [Option.some.inj first] at mem
    exact absurd mem (by decide)
  rw [unsigned, List.nil_append] at split
  rwa [split]

/-- The characters of what denotes a number: those of decimal numerals, or those of numerals with
the mark of a radix. -/
theorem Denotes.marks {t : Text} {x : Double} (h : Denotes t x) :
    (∀ c ∈ Text.trim t.plain, IsDecimalMark c) ∨ ∀ c ∈ Text.trim t.plain, IsRadixMark c := by
  cases h with
  | decimal sign split decimal =>
    rw [split]
    exact .inl (decimal.isDecimalMark_signed sign)
  | marked _ announced read => exact .inr (isRadixMark_of_marked? announced read)

theorem not_isRadixMark {c : CodePoint} (low : c.val < 0x30) : ¬ IsRadixMark c := by
  rintro (letter | ⟨d, digit⟩)
  · have letters : ∀ c ∈ txt "xob_", 0x30 ≤ c.val := by decide
    have := letters _ letter
    rw [CodePoint.asciiLower, dif_neg (by omega)] at this
    omega
  · have := (digit.appearance le_rfl).2.1
    omega

/-! ### Signs inside of numerals -/

theorem Digits.unsigned {n : Nat} {t : Text} (h : Digits 10 t n) : ∀ c ∈ t, c ∉ txt "+-" := by
  have other : ∀ c ∈ txt "+-", c.isAsciiDigit = false := by decide
  intro c mem sign
  obtain ⟨d, digit⟩ := h.of_mem mem
  exact absurd digit.isAsciiDigit (by rw [other c sign]; decide)

theorem Decimal.unsigned_head {t u : Text} {q : ℚ} {c : CodePoint} (h : Decimal t q)
    (form : t = c :: u) : c ∉ txt "+-" := by
  have other : ∀ c ∈ txt "+-", ¬ (c.isAsciiDigit = true ∨ c = chr '.') := by decide
  obtain ⟨d, v, rfl, begins⟩ := h.exists_cons
  obtain ⟨rfl, -⟩ := List.cons.inj form
  exact fun sign => other d sign begins

/-- A decimal numeral is what has no sign in it and a power of ten. -/
theorem Decimal.exists_power {t : Text} {q : ℚ} (h : Decimal t q) :
    ∃ front p k, t = front ++ p ∧ Power p k ∧ ∀ c ∈ front, c ∉ txt "+-" := by
  cases h with
  | @whole w p _ k _ digits power => exact ⟨w, p, k, rfl, power, digits.unsigned⟩
  | @pointed w f p _ k _ digits power =>
    refine ⟨w ++ chr '.' :: f, p, k, by simp, power, ?_⟩
    intro c mem
    rcases List.mem_append.mp mem with mem | mem
    · exact digits.unsigned c (List.mem_append_left _ mem)
    · rcases List.mem_cons.mp mem with rfl | mem
      · decide
      · exact digits.unsigned c (List.mem_append_right _ mem)

theorem Digits.last {n : Nat} {t : Text} (h : Digits 10 t n) (filled : t ≠ []) :
    ∃ u c, t = u ++ [c] ∧ c ∉ txt "eE" := by
  have other : ∀ c ∈ txt "eE", c.isAsciiDigit = false := by decide
  cases h with
  | nil => exact absurd rfl filled
  | @snoc u _ c _ _ digit =>
    refine ⟨u, c, rfl, fun letter => ?_⟩
    exact absurd digit.isAsciiDigit (by rw [other c letter]; decide)

theorem Power.last {t : Text} {k : Int} (h : Power t k) :
    t = [] ∨ ∃ u c, t = u ++ [c] ∧ c ∉ txt "eE" := by
  cases h with
  | absent => exact .inl rfl
  | @written e _ w _ _ _ _ filled digits =>
    obtain ⟨u, c, rfl, other⟩ := digits.last filled
    exact .inr ⟨e :: (w ++ u), c, by simp, other⟩

/-- A decimal numeral does not end with the letter of a power. -/
theorem Decimal.last {t : Text} {q : ℚ} (h : Decimal t q) : ∃ u c, t = u ++ [c] ∧ c ∉ txt "eE" := by
  cases h with
  | @whole w p _ _ filled digits power =>
    rcases power.last with rfl | ⟨u, c, rfl, other⟩
    · simpa using digits.last filled
    · exact ⟨w ++ u, c, by simp, other⟩
  | @pointed w f p _ _ filled digits power =>
    rcases power.last with rfl | ⟨u, c, rfl, other⟩
    · by_cases whole : f = []
      · exact ⟨w, chr '.', by simp [whole], by decide⟩
      · obtain ⟨_, _, -, fraction, -⟩ := digits.of_append
        obtain ⟨u, c, rfl, other⟩ := fraction.last whole
        exact ⟨w ++ chr '.' :: u, c, by simp, other⟩
    · exact ⟨w ++ chr '.' :: (f ++ u), c, by simp, other⟩

theorem Power.sign_behind {p a b : Text} {k : Int} {c : CodePoint} (h : Power p k)
    (form : p = a ++ c :: b) (sign : c ∈ txt "+-") : ∃ e ∈ txt "eE", a = [e] := by
  have letters : ∀ c ∈ txt "eE", c ∉ txt "+-" := by decide
  cases h with
  | absent => simp at form
  | @written e negative w u n letter known filled digits =>
    cases a with
    | nil =>
      obtain ⟨rfl, -⟩ := List.cons.inj form
      exact absurd sign (letters e letter)
    | cons d a =>
      obtain ⟨rfl, behind⟩ := List.cons.inj form
      refine ⟨e, letter, congrArg (e :: ·) ?_⟩
      rcases signs_cases known with rfl | ⟨s, _, rfl⟩
      · exact absurd sign (digits.unsigned c (by rw [show u = a ++ c :: b from behind]; simp))
      · cases a with
        | nil => rfl
        | cons d a =>
          obtain ⟨-, inside⟩ := List.cons.inj behind
          exact absurd sign (digits.unsigned c (by rw [show u = a ++ c :: b from inside]; simp))

/-- A sign in a decimal numeral stands behind the letter of the power. -/
theorem Decimal.sign_behind {t a b : Text} {q : ℚ} {c d : CodePoint} (h : Decimal t q)
    (form : t = a ++ d :: c :: b) (sign : c ∈ txt "+-") : d ∈ txt "eE" := by
  obtain ⟨front, p, k, rfl, power, unsigned⟩ := h.exists_power
  have form' : front ++ p = (a ++ [d]) ++ c :: b := by simpa using form
  rcases List.append_eq_append_iff.mp form' with ⟨e, long, behind⟩ | ⟨e, short, behind⟩
  · obtain ⟨letter, mem, rfl⟩ := power.sign_behind behind sign
    have last : d = letter := by simpa using congrArg List.getLast? long
    exact last ▸ mem
  · cases e with
    | nil =>
      obtain ⟨_, _, impossible⟩ := power.sign_behind (a := []) behind.symm sign
      cases impossible
    | cons e rest =>
      obtain ⟨rfl, -⟩ := List.cons.inj behind
      exact absurd sign (unsigned c (by simp [short]))

/-- So it does in every text that denotes a number. -/
theorem Denotes.sign_behind {t a b : Text} {x : Double} {c d : CodePoint} (h : Denotes t x)
    (form : Text.trim t.plain = a ++ d :: c :: b) (sign : c ∈ txt "+-") : d ∈ txt "eE" := by
  have low : ∀ c ∈ txt "+-", c.val < 0x30 := by decide
  cases h with
  | @decimal negative w u n k known split decimal finite =>
    rw [split] at form
    rcases signs_cases known with rfl | ⟨s, _, rfl⟩
    · exact decimal.sign_behind form sign
    · cases a with
      | nil =>
        exact absurd sign (decimal.unsigned_head (List.cons.inj form).2)
      | cons e a => exact decimal.sign_behind (List.cons.inj form).2 sign
  | marked _ announced read =>
    have mark := isRadixMark_of_marked? announced read c (by rw [form]; simp)
    exact absurd mark (not_isRadixMark (low c sign))

/-- What denotes a number and begins with a minus is a decimal numeral behind it. -/
theorem Denotes.of_minus {t u : Text} {x : Double} (h : Denotes t x)
    (form : Text.trim t.plain = chr '-' :: u) :
    ∃ (n : Nat) (k : Int), Decimal u (n * 10 ^ k) ∧ x = Double.ofDecimal true n k := by
  cases h with
  | @decimal negative w v n k known split decimal finite =>
    rw [split] at form
    rcases signs_cases known with rfl | ⟨c, _, rfl⟩
    · exact absurd (by decide) (decimal.unsigned_head form)
    · obtain ⟨rfl, rfl⟩ := List.cons.inj form
      cases negative with
      | true => exact ⟨n, k, decimal, rfl⟩
      | false => exact absurd known (by decide)
  | marked _ announced read =>
    have mark := isRadixMark_of_marked? announced read (chr '-') (by rw [form]; simp)
    exact absurd mark (not_isRadixMark (by decide))

/-! ### Texts that denote no number -/

/-- The signs of a division, which no numeral has. -/
def divisionSigns : Text := txt "/%"

theorem Float.marks {negative : Bool} {t : Text} {x : Double} (h : Float negative t x) :
    ∀ c ∈ t, IsDecimalMark c ∨ 0x41 ≤ c.val := by
  have words : ∀ w ∈ [txt "inf", txt "infinity", txt "nan"], ∀ c ∈ w, 0x61 ≤ c.val := by decide
  have letter (word : Text.asciiLower t ∈ [txt "inf", txt "infinity", txt "nan"]) :
      ∀ c ∈ t, 0x41 ≤ c.val := by
    intro c mem
    have high := words _ word _ (List.mem_map_of_mem mem)
    rw [CodePoint.asciiLower] at high
    split_ifs at high with upper
    · exact upper.1
    · omega
  intro c mem
  cases h with
  | decimal decimal => exact .inl (decimal.isDecimalMark mem)
  | infinite word =>
    refine .inr (letter ?_ c mem)
    rcases List.mem_pair.mp word with eq | eq
    · rw [eq]; decide
    · rw [eq]; decide
  | undefined word => exact .inr (letter (by rw [word]; decide) c mem)

/-- A text with the sign of a division denotes no number. -/
theorem reduced?_division {c : CodePoint} (division : c ∈ divisionSigns) {t : Text} (mem : c ∈ t) :
    reduced? t = .ok none := by
  have all : ∀ c ∈ divisionSigns, c.isBlank = false ∧ c.plain = c ∧ c ∉ txt "+-" ∧
      ¬ IsDecimalMark c ∧ c.val < 0x30 := by
    simp only [IsDecimalMark]
    decide
  obtain ⟨blank, plain, unsigned, other, low⟩ := all c division
  have rest {w u : Text} {negative : Bool} (sign : w ∈ signs negative)
      (split : Text.trim (Text.plain (Text.trim t)) = w ++ u) : c ∈ u := by
    have signed : ∀ negative, ∀ w ∈ signs negative, ∀ c ∈ w, c ∈ txt "+-" := by decide
    have inside : c ∈ w ++ u := by
      rw [← split]
      refine mem_trim ?_ blank
      rw [← plain]
      exact List.mem_map_of_mem (mem_trim mem blank)
    exact (List.mem_append.mp inside).resolve_left fun front => unsigned (signed _ w sign c front)
  have float : float? (Text.trim t) = none := by
    rw [Option.eq_none_iff_forall_ne_some]
    intro x read
    obtain ⟨negative, w, sign, u, split, form⟩ := float_of_float? read
    rcases form.marks c (rest sign split) with mark | high
    · exact other mark
    · omega
  have marked {radix : Nat} (announced : markedRadix? (Text.trim t) = some radix) :
      integer? radix (Text.trim t) = none := by
    have small : ∀ radix ∈ [16, 8, 2], radix ≤ 16 := by decide
    rw [Option.eq_none_iff_forall_ne_some]
    intro i read
    obtain ⟨negative, w, sign, u, split, marks⟩ :=
      isRadixMark_of_integer? (small _ (markedRadix?_mem announced).1) read
    exact not_isRadixMark low (marks c (rest sign split))
  rw [reduced?]
  split
  · rfl
  · rw [float]
    cases announced : markedRadix? (Text.trim t) with
    | none => rfl
    | some radix => simp only [marked?, marked announced]

end ParamSchema.Numeral
