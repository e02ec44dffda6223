import ParamSchema.Parse.Literal
import ParamSchema.Proofs.Numerals.Literals
import ParamSchema.Source.Escape

/-!
The ways to write a string. Between its quotes a string literal has characters that stand for
themselves and escapes (`StringLiteral.Spells`); each escape stands for one code point or, at the
end of a line, for nothing (`StringLiteral.Escapes`). What the literal means is the sequence of code
units of these code points (`StringLiteral.codeUnits`), so the two halves of a surrogate pair that
are written one by one mean the one character of the pair.
-/

namespace ParamSchema

open Parse (escapeLength isHexDigit isLineEnd unicodeEscape)

namespace StringLiteral

/-! ### Meaning -/

/-- The code units of a code point. Beyond the first plane there are two; a half of a surrogate pair
is one by itself. -/
def units (c : CodePoint) : List Nat :=
  if c.val < 0x10000 then [c.val]
  else [0xD800 + (c.val - 0x10000) / 0x400, 0xDC00 + (c.val - 0x10000) % 0x400]

/-- The code units of a text. -/
def codeUnits (t : Text) : List Nat := t.flatMap units

theorem units_ne_nil (c : CodePoint) : units c ≠ [] := by
  rw [units]
  split_ifs <;> exact List.cons_ne_nil _ _

/-- Texts without halves of surrogate pairs are known by their code units. -/
theorem eq_of_codeUnits {t u : Text} (proper : t.hasSurrogate = false)
    (proper' : u.hasSurrogate = false) (same : codeUnits t = codeUnits u) : t = u := by
  induction t generalizing u with
  | nil =>
    cases u with
    | nil => rfl
    | cons d u => exact absurd (List.append_eq_nil_iff.mp same.symm).1 (units_ne_nil d)
  | cons c t ih =>
    cases u with
    | nil => exact absurd (List.append_eq_nil_iff.mp same).1 (units_ne_nil c)
    | cons d u =>
      simp only [Text.hasSurrogate, List.any_cons, Bool.or_eq_false_iff] at proper proper'
      obtain ⟨proper, rest⟩ := proper
      obtain ⟨proper', rest'⟩ := proper'
      have first : c.val = d.val ∧ codeUnits t = codeUnits u := by
        simp only [CodePoint.isSurrogate, Bool.and_eq_false_iff, decide_eq_false_iff_not]
          at proper proper'
        simp only [codeUnits, List.flatMap_cons, units] at same
        have below := c.isLt
        have below' := d.isLt
        split_ifs at same <;>
          simp only [List.cons_append, List.nil_append, List.cons.injEq] at same
        · exact same
        · omega
        · omega
        · exact ⟨by omega, same.2.2⟩
      rw [Numeral.eq_of_val first.1, ih rest rest' first.2]

/-! ### Escapes -/

/-- The letters that stand for control characters behind a backslash. -/
def controls : List (Char × CodePoint) :=
  [('b', chr '\x08'), ('t', chr '\t'), ('n', chr '\n'), ('v', chr '\x0b'), ('f', chr '\x0c'),
   ('r', chr '\r'), ('0', chr '\x00')]

/-- Whether a character stands for itself behind a backslash: all do but digits, ends of lines and
the letters of the other escapes. -/
def isPlain (c : Char) : Bool :=
  !("bfnrtvux".toList.contains c || c.isDigit || isLineEnd c)

/-- An escape before the character `next`, and the code points that it stands for. -/
inductive Escapes (next : Char) : List Char → Text → Prop where
  | control {letter : Char} {c : CodePoint} : (letter, c) ∈ controls →
      (letter = '0' → next.isDigit = false) → Escapes next ['\\', letter] [c]
  | plain {c : Char} : isPlain c = true → Escapes next ['\\', c] [chr c]
  | hexadecimal {digits : List Char} {c : CodePoint} : digits.length = 2 →
      Numeral.Digits 16 (Text.ofChars digits) c.val → Escapes next ('\\' :: 'x' :: digits) [c]
  | unicode {digits : List Char} {c : CodePoint} : digits.length = 4 →
      Numeral.Digits 16 (Text.ofChars digits) c.val → Escapes next ('\\' :: 'u' :: digits) [c]
  | braced {digits : List Char} {c : CodePoint} : digits ≠ [] →
      Numeral.Digits 16 (Text.ofChars digits) c.val →
        Escapes next ('\\' :: 'u' :: '\x7b' :: (digits ++ ['\x7d'])) [c]
  | lineFeed : Escapes next ['\\', '\n'] []
  | carriageReturn : next ≠ '\n' → Escapes next ['\\', '\r'] []
  | both : Escapes next ['\\', '\r', '\n'] []

/-- Whether a character stands for itself between the quotes of a literal. -/
def isRaw (quote c : Char) : Bool := c != quote && c != '\\' && c != '\n' && c != '\r'

theorem not_isRaw_backslash (quote : Char) : isRaw quote '\\' = false := by simp [isRaw]

theorem not_isRaw_quote (quote : Char) : isRaw quote quote = false := by simp [isRaw]

/-- The characters between the quotes of a literal, and the code points that they stand for. -/
inductive Spells (quote : Char) : List Char → Text → Prop where
  | nil : Spells quote [] []
  | raw {c : Char} {w : List Char} {t : Text} : isRaw quote c = true → Spells quote w t →
      Spells quote (c :: w) (chr c :: t)
  | escape {e w : List Char} {v t : Text} : Escapes (w.headD quote) e v → Spells quote w t →
      Spells quote (e ++ w) (v ++ t)

theorem isHexDigit_of_digits {ds : List Char} {n : Nat}
    (h : Numeral.Digits 16 (Text.ofChars ds) n) : ∀ d ∈ ds, isHexDigit d = true := by
  have all : ∀ k : Fin 16, isHexDigit (Nat.digitChar k) = true ∧
      isHexDigit (Nat.digitChar k).toUpper = true := by decide
  intro d mem
  obtain ⟨k, below, form⟩ := h.of_mem (Text.mem_ofChars.mpr mem)
  rcases form with lower | upper
  · rw [CodePoint.eq_of_ofChar lower]
    exact (all ⟨k, below⟩).1
  · rw [CodePoint.eq_of_ofChar upper]
    exact (all ⟨k, below⟩).2

/-- Hexadecimal digits without a mark are read as what they denote. -/
theorem integer?_of_digits {t : Text} {n : Nat} (filled : t ≠ []) (h : Numeral.Digits 16 t n) :
    Numeral.integer? 16 t = some (n : Int) := by
  have bounds {c : CodePoint} (mem : c ∈ t) := h.bounds_of_mem le_rfl mem
  have visible : ∀ c ∈ t, Numeral.IsVisible c := by
    intro c mem
    obtain ⟨low, high, -⟩ := bounds mem
    exact ⟨by omega, by omega⟩
  have underscore : chr '_' ∉ t := fun mem => (bounds mem).2.2 rfl
  have unsigned : Numeral.sign t = (false, t) := by
    obtain ⟨c, u, rfl⟩ := List.exists_cons_of_ne_nil filled
    have low := (bounds List.mem_cons_self).1
    have minus : (c == chr '-') = false := by
      rw [beq_eq_false_iff_ne]
      rintro rfl
      exact absurd low (by decide)
    have plus : (c == chr '+') = false := by
      rw [beq_eq_false_iff_ne]
      rintro rfl
      exact absurd low (by decide)
    simp [Numeral.sign, minus, plus]
  have unmarked : Numeral.dropMark 16 t = t := by
    have letters : ∀ k : Fin 16, chr (Nat.digitChar k) ≠ chr 'x' := by decide
    have other {c : CodePoint} (mem : c ∈ t) : c.asciiLower ≠ chr 'x' := by
      obtain ⟨k, digit⟩ := h.of_mem mem
      rw [(digit.appearance le_rfl).2.2.2.2]
      exact letters ⟨k, digit.1⟩
    rcases t with _ | ⟨c, _ | ⟨d, u⟩⟩
    · rfl
    · rfl
    · have second : d.asciiLower ≠ chr 'x' := other (by simp)
      simp [Numeral.dropMark, Numeral.radixMark, second]
  rw [Numeral.integer?, Numeral.plain_of_visible visible, Numeral.trim_of_visible visible, unsigned]
  simp [unmarked, Numeral.grouped?, Text.splitOn_of_not_mem underscore, h.digits? le_rfl, filled]

/-- Braces around a text without braces are dropped. -/
theorem withoutBraces_around (front back : Text) {t : Text} (filled : t ≠ [])
    (open' : ∀ c ∈ front, Escape.isBrace c = true) (close : ∀ c ∈ back, Escape.isBrace c = true)
    (inside : ∀ c ∈ t, Escape.isBrace c = false) :
    Escape.withoutBraces (front ++ (t ++ back)) = t := by
  have keeps {u : Text} (first : ∀ c ∈ u.head?, Escape.isBrace c = false) :
      u.dropWhile Escape.isBrace = u := by
    cases u with
    | nil => rfl
    | cons c u => exact List.dropWhile_cons_of_neg (by rw [first c rfl]; decide)
  have start : (front ++ (t ++ back)).dropWhile Escape.isBrace = t ++ back := by
    rw [List.dropWhile_append_of_pos open']
    refine keeps fun c head => inside c ?_
    rw [List.head?_append_of_ne_nil _ filled] at head
    exact List.mem_of_head? head
  have stop : (t ++ back).reverse.dropWhile Escape.isBrace = t.reverse := by
    rw [List.reverse_append,
      List.dropWhile_append_of_pos fun c mem => close c (List.mem_reverse.mp mem)]
    exact keeps fun c head => inside c (List.mem_reverse.mp (List.mem_of_head? head))
  rw [Escape.withoutBraces, start, Text.dropEndWhile, stop, List.reverse_reverse]

theorem isBrace_of_digits {t : Text} {n : Nat} (h : Numeral.Digits 16 t n) :
    ∀ c ∈ t, Escape.isBrace c = false := by
  intro c mem
  have high := (h.bounds_of_mem le_rfl mem).2.1
  have left : c ≠ chr '\x7b' := by
    rintro rfl
    exact absurd high (by decide)
  have right : c ≠ chr '\x7d' := by
    rintro rfl
    exact absurd high (by decide)
  simp [Escape.isBrace, left, right]

theorem numbered_of_digits {sequence t : Text} {c : CodePoint} (filled : t ≠ [])
    (h : Numeral.Digits 16 t c.val) : Escape.numbered sequence t = .ok [c] := by
  have below := c.isLt
  have found : CodePoint.ofNat? c.val = some c := dif_pos below
  rw [Escape.numbered, integer?_of_digits filled h]
  have fits : ¬ (((c.val : Int) < -0x80000000 || 0x7FFFFFFF < (c.val : Int)) = true) := by
    simp only [Bool.or_eq_true, decide_eq_true_eq]
    omega
  have positive : ¬ (c.val : Int) < 0 := by omega
  simp only [if_neg fits, if_neg positive, Int.toNat_natCast, found]

/-- A number behind the letter `u` is decoded, with braces around it or not. -/
theorem decode_unicode (front back : Text) {t : Text} {c : CodePoint} (filled : t ≠ [])
    (open' : ∀ c ∈ front, Escape.isBrace c = true) (close : ∀ c ∈ back, Escape.isBrace c = true)
    (h : Numeral.Digits 16 t c.val) :
    Escape.decode (chr '\\' :: chr 'u' :: (front ++ (t ++ back))) = .ok [c] := by
  have bare := withoutBraces_around front back filled open' close (isBrace_of_digits h)
  generalize whole : front ++ (t ++ back) = u at bare
  cases u with
  | nil => simp [filled] at whole
  | cons d u =>
    show Escape.numbered _ (Escape.withoutBraces (d :: u)) = _
    rw [bare]
    exact numbered_of_digits filled h

/-- An escape is decoded to what it stands for. -/
theorem Escapes.decode {next : Char} {e : List Char} {v : Text} (h : Escapes next e v) :
    Escape.decode (Text.ofChars e) = .ok v := by
  cases h with
  | control known _ =>
    have all : ∀ p ∈ controls, Escape.decode (Text.ofChars ['\\', p.1]) = .ok [p.2] := by decide
    exact all _ known
  | @plain c plain =>
    have other {d : Char} (special : isPlain d = false) : (chr c == chr d) = false := by
      rw [beq_eq_false_iff_ne]
      intro same
      rw [CodePoint.eq_of_ofChar same, special] at plain
      cases plain
    have absent : Escape.simple.lookup (chr c) = none := by
      have letters : ∀ p ∈ Escape.simple, p.1 ∈ ['n', 't', 'r', 'b', 'f', 'v', '0'].map chr := by
        decide
      have special : ∀ d ∈ ['n', 't', 'r', 'b', 'f', 'v', '0'], isPlain d = false := by
        simp only [List.forall_mem_cons]
        exact ⟨rfl, rfl, rfl, rfl, rfl, rfl, rfl, List.forall_mem_nil _⟩
      rw [List.lookup_eq_none_iff]
      intro p mem
      obtain ⟨d, letter, key⟩ := List.mem_map.mp (letters p mem)
      rw [← key, bne, other (special d letter)]
      rfl
    simp [Escape.decode, Text.ofChars, absent, other (d := 'u') rfl, other (d := 'x') rfl,
      other (d := '\r') rfl, other (d := '\n') rfl]
  | hexadecimal two digits =>
    obtain ⟨a, b, rfl⟩ := List.length_eq_two.mp two
    exact numbered_of_digits (List.cons_ne_nil _ _) digits
  | @unicode ds c four digits =>
    have filled : Text.ofChars ds ≠ [] := by
      intro none
      rw [List.map_eq_nil_iff.mp none] at four
      cases four
    have read := decode_unicode [] [] filled (by simp) (by simp) digits
    rwa [List.nil_append, List.append_nil] at read
  | @braced ds c filled digits =>
    have read := decode_unicode [chr '\x7b'] [chr '\x7d']
      (mt List.map_eq_nil_iff.mp filled) (by decide) (by decide) digits
    have form : Text.ofChars ('\\' :: 'u' :: '\x7b' :: (ds ++ ['\x7d'])) =
        chr '\\' :: chr 'u' :: ([chr '\x7b'] ++ (Text.ofChars ds ++ [chr '\x7d'])) := by
      simp [Text.ofChars]
    rw [form]
    exact read
  | lineFeed => rfl
  | carriageReturn => rfl
  | both => rfl

/-! ### Lengths of escapes -/

/-- The two characters besides the line feed and the carriage return that end a line. They may stand
between the quotes of a literal. -/
def isSeparator (c : Char) : Bool := c.toNat == 0x2028 || c.toNat == 0x2029

theorem not_octal_of_isDigit {c : Char} (h : c.isDigit = false) :
    ('0' ≤ c && c ≤ '7') = false := by
  simp only [Char.isDigit, Bool.and_eq_false_iff, decide_eq_false_iff_not] at h ⊢
  rcases h with low | high
  · exact .inl low
  · exact .inr fun below => high (UInt32.le_trans below (by decide))

/-- An escape is as long as it is written, unless it is a carriage return before a separator. -/
theorem Escapes.escapeLength_eq {next : Char} {e : List Char} {v : Text} (h : Escapes next e v)
    (separate : e = ['\\', '\r'] → isSeparator next = false) (after : List Char) :
    escapeLength (e ++ next :: after) = e.length := by
  cases h with
  | @control letter c known digit =>
    by_cases zero : letter = '0'
    · have stop := not_octal_of_isDigit (digit zero)
      subst zero
      simp [escapeLength, stop]
    · have all : ∀ p ∈ controls, p.1 ≠ '0' → ∀ next after,
          escapeLength ('\\' :: p.1 :: next :: after) = 2 := by
        simp [controls, escapeLength]
      exact all _ known zero next after
  | @plain c plain =>
    have other {d : Char} (special : isPlain d = false) : c ≠ d := by
      rintro rfl
      rw [special] at plain
      cases plain
    have digit : c.isDigit = false := by
      simp only [isPlain, Bool.not_eq_true', Bool.or_eq_false_iff] at plain
      exact plain.1.2
    simp [escapeLength, other (d := 'x') rfl, other (d := 'u') rfl, other (d := '\r') rfl,
      not_octal_of_isDigit digit]
  | hexadecimal two digits =>
    obtain ⟨a, b, rfl⟩ := List.length_eq_two.mp two
    have hex := isHexDigit_of_digits digits
    simp [escapeLength, hex]
  | @unicode ds c four digits =>
    have hex := isHexDigit_of_digits digits
    rcases ds with _ | ⟨a, _ | ⟨b, _ | ⟨c, _ | ⟨d, _ | ⟨x, ds⟩⟩⟩⟩⟩ <;> simp at four
    have length : unicodeEscape ('\\' :: 'u' :: a :: b :: c :: d :: next :: after) = 6 := by
      rw [unicodeEscape]
      · simp [hex]
      · rintro rfl
        exact absurd (hex _ List.mem_cons_self) (by decide)
    simp [escapeLength, length]
  | @braced ds c filled digits =>
    have hex := isHexDigit_of_digits digits
    have run : (ds ++ '\x7d' :: next :: after).takeWhile isHexDigit = ds := by
      rw [List.takeWhile_append_of_pos hex]
      simp [List.takeWhile, (by decide : isHexDigit '\x7d' = false)]
    simp [escapeLength, unicodeEscape, run, filled]
  | lineFeed => rfl
  | carriageReturn other =>
    have apart := separate rfl
    simp only [isSeparator, Bool.or_eq_false_iff] at apart
    simp [escapeLength, isLineEnd, other, apart]
  | both => rfl

/-- A separator behind a carriage return belongs to the escape. -/
theorem escapeLength_separator {c : Char} (h : isSeparator c = true) (after : List Char) :
    escapeLength ('\\' :: '\r' :: c :: after) = 3 := by
  have other : c ≠ '\r' := by
    rintro rfl
    cases h
  have ends : isLineEnd c = true := by
    rw [isSeparator, Bool.or_eq_true] at h
    rcases h with line | paragraph
    · simp [isLineEnd, line]
    · simp [isLineEnd, paragraph]
  simp [escapeLength, other, ends]

end StringLiteral

end ParamSchema
