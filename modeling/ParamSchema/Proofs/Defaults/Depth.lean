import ParamSchema.Parse.Reader
import ParamSchema.Proofs.Defaults.Evaluation
import ParamSchema.Proofs.Double.Printing
import ParamSchema.Proofs.Numerals.Agreement
import ParamSchema.Proofs.Outcome
import ParamSchema.Proofs.Places

/-!
The depth of folding. Where the depth is used up, a part of an expression stays as it is written,
and the level above reads its source. More depth then never changes a number that was found with
less (`Defaults.number_of_deeper`), because the source of an arithmetic expression is read as a
number only where it is a literal or a negated literal. The exception are literals that are octal by
a zero in front, whose source reads as a decimal number.
-/

namespace ParamSchema

namespace Defaults

/-- Operators do not tell the two zeros apart. -/
theorem arithmetic_congr {operator : Text} {x x' y y' z : Double} {a b c : ℚ}
    (hx : x.value? = some a) (hx' : x'.value? = some a) (hy : y.value? = some b)
    (hy' : y'.value? = some b) (h : arithmetic operator x y = some z) (hz : z.value? = some c) :
    ∃ z', arithmetic operator x' y' = some z' ∧ z'.value? = some c := by
  have divisor : y'.isZero = y.isZero := by
    rw [Bool.eq_iff_iff, Double.isZero_iff hy, Double.isZero_iff hy']
  by_cases zero : a = 0 ∨ b = 0
  · -- with a zero operand every result is exact
    have fitsA := Double.representable_of_value? hx
    have fitsB := Double.representable_of_value? hy
    have fitsNeg := Double.representable_of_value? (Double.value?_neg hy)
    have fitsZero := Double.representable_of_value? (Double.value?_zero false)
    have sum {x y : Double} (hx : x.value? = some a) (hy : y.value? = some b) :
        (x + y).value? = some (a + b) := by
      refine Double.value?_add hx hy ?_
      rcases zero with rfl | rfl
      · rwa [zero_add]
      · rwa [add_zero]
    have difference {x y : Double} (hx : x.value? = some a) (hy : y.value? = some b) :
        (x - y).value? = some (a - b) := by
      refine Double.value?_sub hx hy ?_
      rcases zero with rfl | rfl
      · rwa [zero_sub]
      · rwa [sub_zero]
    have product {x y : Double} (hx : x.value? = some a) (hy : y.value? = some b) :
        (x * y).value? = some (a * b) := by
      refine Double.value?_mul hx hy ?_
      rcases zero with rfl | rfl
      · rwa [zero_mul]
      · rwa [mul_zero]
    have dividend (nonzero : ¬ y.isZero = true) : a = 0 ∧ b ≠ 0 := by
      rw [Double.isZero_iff hy] at nonzero
      exact ⟨zero.resolve_right nonzero, nonzero⟩
    rw [arithmetic] at h ⊢
    rw [divisor]
    split_ifs at h ⊢ with _ _ _ _ nonzero _ nonzero'
    · cases h
      exact ⟨_, rfl, (sum hx' hy').trans ((sum hx hy).symm.trans hz)⟩
    · cases h
      exact ⟨_, rfl, (difference hx' hy').trans ((difference hx hy).symm.trans hz)⟩
    · cases h
      exact ⟨_, rfl, (product hx' hy').trans ((product hx hy).symm.trans hz)⟩
    · cases h
      obtain ⟨rfl, proper⟩ := dividend nonzero
      have quotient {x y : Double} (hx : x.value? = some 0) (hy : y.value? = some b) :
          (x / y).value? = some (0 / b) :=
        Double.value?_div hx hy proper (by rwa [zero_div])
      exact ⟨_, rfl, (quotient hx' hy').trans ((quotient hx hy).symm.trans hz)⟩
    · cases h
      obtain ⟨rfl, proper⟩ := dividend nonzero'
      exact ⟨_, rfl, (Double.value?_zero_rem hx' hy' proper).trans
        ((Double.value?_zero_rem hx hy proper).symm.trans hz)⟩
  · rw [not_or] at zero
    rw [← Double.eq_of_value? hx hx' zero.1, ← Double.eq_of_value? hy hy' zero.2]
    exact ⟨z, h, hz⟩

/-- A text denotes a rational number. -/
def Reads (t : Text) (q : ℚ) : Prop :=
  ∃ x, Numeral.reduced? t = .ok (some x) ∧ x.value? = some q

theorem reads_text {x : Double} {q : ℚ} (h : x.value? = some q) : Reads x.text q :=
  ⟨_, Double.reduced?_text (Double.isFinite_of_value? h), Double.value?_unsignedZero h⟩

theorem Reads.unique {t : Text} {q q' : ℚ} (h : Reads t q) (h' : Reads t q') : q = q' := by
  obtain ⟨x, read, value⟩ := h
  obtain ⟨y, read', value'⟩ := h'
  cases read.symm.trans read'
  exact Option.some.inj (value.symm.trans value')

theorem exists_reads {t : Text} {x : Double} (h : Numeral.reduced? t = .ok (some x)) :
    ∃ q, x.value? = some q ∧ Reads t q := by
  obtain ⟨q, value⟩ := Double.exists_value? (Numeral.denotes_of_reduced? h).2.isFinite
  exact ⟨q, value, x, h, value⟩

theorem foldedBinary_eq_some {operator a b t : Text} :
    foldedBinary operator a b = .ok (some t) ↔
      ∃ x y z, Numeral.reduced? a = .ok (some x) ∧ Numeral.reduced? b = .ok (some y) ∧
        arithmetic operator x y = some z ∧ z.isFinite = true ∧ z.text = t := by
  constructor
  · intro h
    obtain ⟨x?, left, h⟩ := Outcome.bind_eq_ok.mp h
    obtain ⟨y?, right, h⟩ := Outcome.bind_eq_ok.mp h
    cases x? with
    | none => cases h
    | some x =>
      cases y? with
      | none => cases h
      | some y =>
        obtain ⟨z, found, text⟩ := Option.map_eq_some_iff.mp (Except.ok.inj h)
        obtain ⟨result, finite⟩ := Option.filter_eq_some_iff.mp found
        exact ⟨x, y, z, left, right, result, finite, text⟩
  · rintro ⟨x, y, z, left, right, result, finite, rfl⟩
    rw [foldedBinary, left, right]
    show Except.ok (((arithmetic operator x y).filter Double.isFinite).map Double.text) = _
    rw [result, Option.filter_some, if_pos finite]
    rfl

theorem evaluate_negated_number (r : Resolver) {s operand : Site} {n : Nat} {t : Text} {x : Double}
    (kind : s.node.kind = .unaryExpression)
    (operator : s.file.textOf? (s.node.child? .operator) = txt "-")
    (argument : s.child? .argument = some operand) (inside : evaluate r n operand = .ok t)
    (read : Numeral.reduced? t = .ok (some x)) : evaluate r (n + 1) s = .ok x.neg.text := by
  rw [evaluate_negated r n kind operator argument, inside]
  show (fun x? => (x?.map (Double.text ∘ Double.neg)).getD s.text) <$> Numeral.reduced? t = _
  rw [read]
  rfl

/-! ### Written expressions -/

/-- What may stand between two tokens: white space and comments. -/
inductive IsGap : Text → Prop where
  | empty : IsGap []
  | space {c : Char} {t : Text} : Parse.isSpace c = true → IsGap t → IsGap (chr c :: t)
  | line {body t : Text} : IsGap t → IsGap (txt "//" ++ body ++ chr '\n' :: t)
  | block {body t : Text} : IsGap t → IsGap (txt "/*" ++ body ++ txt "*/" ++ t)

/-- The signs of arithmetic. -/
def arithmeticSigns : List Text := [txt "+", txt "-", txt "*", txt "/", txt "%", txt "**"]

/-- Arithmetic over number literals as it is written at a site; `literals` are those that may occur.
-/
inductive IsArithmetic (literals : Text → Prop) : Site → Prop where
  | literal {s : Site} : s.node.kind = .number → literals s.text → IsArithmetic literals s
  | group {s inner : Site} {before behind : Text} : s.node.kind = .parenthesizedExpression →
      s.proper.head? = some inner → IsGap before → IsGap behind →
      s.text = chr '(' :: (before ++ inner.text ++ behind ++ [chr ')']) →
      IsArithmetic literals inner → IsArithmetic literals s
  | negated {s operand : Site} {gap : Text} : s.node.kind = .unaryExpression →
      s.file.textOf? (s.node.child? .operator) = txt "-" → s.child? .argument = some operand →
      IsGap gap → s.text = chr '-' :: (gap ++ operand.text) →
      IsArithmetic literals operand → IsArithmetic literals s
  | binary {s left right : Site} {sign before behind : Text} :
      s.node.kind = .binaryExpression → sign ∈ arithmeticSigns →
      s.file.textOf? (s.node.child? .operator) = sign →
      s.child? .left = some left → s.child? .right = some right →
      IsGap before → IsGap behind →
      s.text = left.text ++ before ++ sign ++ behind ++ right.text →
      IsArithmetic literals left → IsArithmetic literals right → IsArithmetic literals s

theorem not_isDecimalMark_space {c : Char} (h : Parse.isSpace c = true) :
    ¬ Numeral.IsDecimalMark (chr c).plain := by
  have all : ∀ n ∈ [0x09, 0x0A, 0x0B, 0x0C, 0x0D, 0x20, 0xA0, 0x1680, 0x2000, 0x2001, 0x2002,
      0x2003, 0x2004, 0x2005, 0x2006, 0x2007, 0x2008, 0x2009, 0x200A, 0x200B, 0x2028, 0x2029,
      0x202F, 0x205F, 0x2060, 0x3000, 0xFEFF],
      ∀ lt, ¬ Numeral.IsDecimalMark (CodePoint.mk n lt).plain := by
    simp only [Numeral.IsDecimalMark]
    decide
  refine all c.toNat ?_ _
  simp only [Parse.isSpace, Bool.or_eq_true, Bool.and_eq_true, decide_eq_true_eq, beq_iff_eq] at h
  simp only [List.mem_cons, List.not_mem_nil, or_false]
  omega

/-- No gap is written with the characters of decimals. -/
theorem IsGap.eq_nil {t : Text} (h : IsGap t) (marks : ∀ c ∈ t, Numeral.IsDecimalMark c.plain) :
    t = [] := by
  have slash : ¬ Numeral.IsDecimalMark (chr '/').plain := by
    rw [Numeral.IsDecimalMark]
    decide
  cases h with
  | empty => rfl
  | space space => exact absurd (marks _ List.mem_cons_self) (not_isDecimalMark_space space)
  | line => exact absurd (marks _ List.mem_cons_self) slash
  | block => exact absurd (marks _ List.mem_cons_self) slash

theorem arithmeticSigns_known : ∀ sign ∈ arithmeticSigns, sign ≠ [] ∧ ∀ c ∈ sign,
    c.val < 0x30 ∧ c.plain = c ∧ (c ∈ txt "+-" ∨ ¬ Numeral.IsDecimalMark c) := by
  simp only [Numeral.IsDecimalMark]
  decide

theorem plain_of_isVisible {c : CodePoint} (h : Numeral.IsVisible c) : c.plain = c := by
  have := h.2
  rw [CodePoint.plain, if_pos (by omega)]

section

variable {literals : Text → Prop}
  (known : ∀ t, literals t → Numeral.Literal (t.filter (· != chr '_'))) {s : Site}

include known

theorem IsArithmetic.ends (h : IsArithmetic literals s) :
    (∃ c u, s.text = c :: u ∧ Numeral.IsVisible c) ∧
      ∃ u c, s.text = u ++ [c] ∧ Numeral.IsVisible c := by
  induction h with
  | @literal s _ form =>
    have visible := Numeral.isVisible_of_filter (known _ form)
    have filled : s.text ≠ [] := by
      intro empty
      obtain ⟨c, u, eq⟩ := (known _ form).exists_cons
      rw [empty] at eq
      cases eq
    obtain ⟨c, u, first⟩ := List.exists_cons_of_ne_nil filled
    have last := List.dropLast_concat_getLast filled
    exact ⟨⟨c, u, first, visible c (by simp [first])⟩, _, _, last.symm,
      visible _ (List.getLast_mem filled)⟩
  | @group s inner before behind _ _ _ _ text =>
    rw [text]
    exact ⟨⟨_, _, rfl, by decide⟩, chr '(' :: (before ++ inner.text ++ behind), chr ')', rfl,
      by decide⟩
  | @negated s operand gap _ _ _ _ text _ ih =>
    obtain ⟨-, u, c, last, visible⟩ := ih
    rw [text]
    exact ⟨⟨_, _, rfl, by decide⟩, chr '-' :: (gap ++ u), c, by simp [last], visible⟩
  | @binary s left right sign before behind _ _ _ _ _ _ _ text _ _ ihl ihr =>
    obtain ⟨⟨c, u, first, visible⟩, -⟩ := ihl
    obtain ⟨-, v, d, last, visible'⟩ := ihr
    rw [text]
    exact ⟨⟨c, u ++ before ++ sign ++ behind ++ right.text, by simp [first], visible⟩,
      left.text ++ before ++ sign ++ behind ++ v, d, by simp [last], visible'⟩

/-- No blank stands at the ends of arithmetic, so it is read as it is. -/
theorem IsArithmetic.denotes (h : IsArithmetic literals s) {x : Double}
    (read : Numeral.reduced? s.text = .ok (some x)) :
    Numeral.Denotes s.text x ∧ Text.trim (Text.plain s.text) = Text.plain s.text := by
  obtain ⟨⟨c, u, first, visible⟩, v, d, last, visible'⟩ := h.ends known
  have bare : Text.trim s.text = s.text := by
    refine Numeral.trim_of_ends ?_ ?_
    · rw [first]
      rintro _ ⟨⟩
      exact visible.isBlank
    · rw [last, List.getLast?_concat]
      rintro _ ⟨⟩
      exact visible'.isBlank
  refine ⟨bare ▸ (Numeral.denotes_of_reduced? read).2, Numeral.trim_of_ends ?_ ?_⟩
  · rw [first]
    rintro _ ⟨⟩
    rw [plain_of_isVisible visible]
    exact visible.isBlank
  · rw [last, Text.plain, List.map_append, List.map_singleton, List.getLast?_concat]
    rintro _ ⟨⟩
    rw [plain_of_isVisible visible']
    exact visible'.isBlank

/-- Arithmetic in the characters of decimals is plain, and no letter of a power is its end. -/
theorem IsArithmetic.last (h : IsArithmetic literals s)
    (marks : ∀ c ∈ s.text, Numeral.IsDecimalMark c.plain) :
    (∀ c ∈ s.text, c.plain = c) ∧ ∃ u c, s.text = u ++ [c] ∧ c ∉ txt "eE" := by
  induction h with
  | @literal s _ form =>
    have literal := known _ form
    have visible := Numeral.isVisible_of_filter literal
    have marks' : ∀ c ∈ s.text, Numeral.IsDecimalMark c := by
      intro c mem
      rw [← plain_of_isVisible (visible c mem)]
      exact marks c mem
    have plain : chr '_' ∉ s.text := fun mem =>
      absurd (marks' _ mem) (by rw [Numeral.IsDecimalMark]; decide)
    rw [Numeral.filter_of_no_underscore plain] at literal
    exact ⟨fun c mem => plain_of_isVisible (visible c mem), literal.last marks'⟩
  | group _ _ _ _ text =>
    refine absurd (marks (chr '(') (by rw [text]; exact List.mem_cons_self)) ?_
    rw [Numeral.IsDecimalMark]
    decide
  | @negated s operand gap _ _ _ isGap text _ ih =>
    rw [text] at marks ⊢
    have empty : gap = [] := isGap.eq_nil fun c mem => marks c (by simp [mem])
    obtain ⟨plain, u, c, last, other⟩ := ih fun c mem => marks c (by simp [mem])
    refine ⟨?_, chr '-' :: u, c, by simp [empty, last], other⟩
    rw [empty, List.nil_append]
    exact List.forall_mem_cons.mpr ⟨by decide, plain⟩
  | @binary s left right sign before behind _ isSign _ _ _ isGap isGap' text _ _ ihl ihr =>
    rw [text] at marks ⊢
    have empty : before = [] := isGap.eq_nil fun c mem => marks c (by simp [mem])
    have empty' : behind = [] := isGap'.eq_nil fun c mem => marks c (by simp [mem])
    obtain ⟨plain, -⟩ := ihl fun c mem => marks c (by simp [mem])
    obtain ⟨plain', u, c, last, other⟩ := ihr fun c mem => marks c (by simp [mem])
    have signs := (arithmeticSigns_known sign isSign).2
    refine ⟨?_, left.text ++ sign ++ u, c, by simp [empty, empty', last], other⟩
    rw [empty, empty', List.append_nil, List.append_nil]
    simp only [List.forall_mem_append]
    exact ⟨⟨plain, fun c mem => (signs c mem).2.1⟩, plain'⟩

/-! ### Expressions that are no numerals -/

/-- The source of a group is not read as a number. -/
theorem not_reads_group (h : IsArithmetic literals s) (mem : chr '(' ∈ s.text) {x : Double} :
    Numeral.reduced? s.text ≠ .ok (some x) := by
  intro read
  obtain ⟨denotes, bare⟩ := h.denotes known read
  have inside : chr '(' ∈ Text.trim (Text.plain s.text) := by
    rw [bare]
    exact List.mem_map_of_mem (f := CodePoint.plain) mem
  rcases denotes.marks with decimal | radix
  · exact absurd (decimal _ inside) (by rw [Numeral.IsDecimalMark]; decide)
  · exact absurd (radix _ inside) (Numeral.not_isRadixMark (by decide))

/-- The source of an operation is not read as a number: a sign between digits belongs to none. -/
theorem not_reads_binary (h : IsArithmetic literals s) {left right : Site}
    {sign before behind : Text} (isSign : sign ∈ arithmeticSigns) (isGap : IsGap before)
    (text : s.text = left.text ++ before ++ sign ++ behind ++ right.text)
    (hl : IsArithmetic literals left) {x : Double} :
    Numeral.reduced? s.text ≠ .ok (some x) := by
  intro read
  obtain ⟨denotes, bare⟩ := h.denotes known read
  obtain ⟨filled, signs⟩ := arithmeticSigns_known sign isSign
  obtain ⟨c, rest, rfl⟩ := List.exists_cons_of_ne_nil filled
  obtain ⟨low, plain, sort⟩ := signs c List.mem_cons_self
  have inside : c ∈ Text.plain s.text := by
    rw [← plain, text]
    exact List.mem_map_of_mem (by simp)
  have marks : ∀ c ∈ s.text, Numeral.IsDecimalMark c.plain := by
    rcases denotes.marks with decimal | radix
    · intro c mem
      exact decimal _ (by rw [bare]; exact List.mem_map_of_mem mem)
    · exact absurd (radix c (by rwa [bare])) (Numeral.not_isRadixMark low)
  have plus : c ∈ txt "+-" := by
    refine sort.resolve_right fun other => other ?_
    rw [← plain]
    exact marks c (by simp [text])
  have empty : before = [] := isGap.eq_nil fun c mem => marks c (by simp [text, mem])
  obtain ⟨plainLeft, u, d, last, other⟩ := hl.last known fun c mem => marks c (by simp [text, mem])
  have form : Text.trim (Text.plain s.text) =
      Text.plain u ++ d :: c :: Text.plain (rest ++ behind ++ right.text) := by
    have plainLast : d.plain = d := plainLeft d (by simp [last])
    rw [bare, text, empty, last]
    simp [Text.plain, plain, plainLast]
  exact other (denotes.sign_behind form plus)

/-- A negated expression whose source is read as a number negates the number of its operand. -/
theorem reads_operand (h : IsArithmetic literals s) {operand : Site} {gap : Text}
    (isGap : IsGap gap) (text : s.text = chr '-' :: (gap ++ operand.text))
    (ho : IsArithmetic literals operand) {q : ℚ} (reads : Reads s.text q) :
    Reads operand.text (-q) := by
  obtain ⟨x, read, value⟩ := reads
  obtain ⟨denotes, bare⟩ := h.denotes known read
  have form : Text.trim (Text.plain s.text) = chr '-' :: Text.plain (gap ++ operand.text) := by
    rw [bare, text]
    rfl
  obtain ⟨n, k, decimal, rfl⟩ := denotes.of_minus form
  have marks : ∀ c ∈ gap ++ operand.text, Numeral.IsDecimalMark c.plain := fun c mem =>
    decimal.isDecimalMark (List.mem_map_of_mem mem)
  have empty : gap = [] := isGap.eq_nil fun c mem => marks c (List.mem_append_left _ mem)
  obtain ⟨plain, -⟩ := ho.last known fun c mem => marks c (List.mem_append_right _ mem)
  rw [empty, List.nil_append, Text.plain, List.map_congr_left plain, List.map_id'] at decimal
  have negated : (Double.ofDecimal false n k).value? = some (-q) := by
    rw [← Double.value?_neg value, Double.neg_ofDecimal]
    rfl
  exact ⟨_, decimal.reduced? Numeral.nil_mem_signs rfl (Double.isFinite_of_value? negated), negated⟩

end

/-! ### More depth -/

/-- The literals whose source is read as their number. -/
def IsProper (t : Text) : Prop :=
  Numeral.Literal (t.filter (· != chr '_')) ∧ ¬ Numeral.IsMisread t

section

variable (r : Resolver) {s : Site} {m n : Nat} {t : Text} {q : ℚ}

theorem deeper_literal (kind : s.node.kind = .number) (proper : IsProper s.text)
    (value : evaluate r m s = .ok t) (reads : Reads t q) :
    ∃ t', evaluate r (n + 1) s = .ok t' ∧ Reads t' q := by
  cases m with
  | zero =>
    cases value
    obtain ⟨x, read, number⟩ := reads
    have same : s.file.numberOf? s.node = .ok (some x) :=
      Numeral.literal?_of_reduced? proper.1 proper.2 read
    refine ⟨x.text, ?_, reads_text number⟩
    rw [evaluate_number r n kind, same]
    rfl
  | succ m =>
    rw [evaluate_number r m kind, ← evaluate_number r n kind] at value
    exact ⟨t, value, reads⟩

/-- The number of a negated expression comes from its operand, folded or as it is written. -/
theorem exists_operand_value (known : IsArithmetic IsProper s) {operand : Site} {gap : Text}
    (kind : s.node.kind = .unaryExpression)
    (operator : s.file.textOf? (s.node.child? .operator) = txt "-")
    (argument : s.child? .argument = some operand) (isGap : IsGap gap)
    (text : s.text = chr '-' :: (gap ++ operand.text)) (inner : IsArithmetic IsProper operand)
    (le : m ≤ n + 1) (value : evaluate r m s = .ok t) (reads : Reads t q) :
    ∃ k ≤ n, ∃ u, evaluate r k operand = .ok u ∧ Reads u (-q) := by
  have written (reads : Reads s.text q) :
      ∃ k ≤ n, ∃ u, evaluate r k operand = .ok u ∧ Reads u (-q) :=
    ⟨0, Nat.zero_le n, operand.text, rfl,
      reads_operand (fun _ proper => proper.1) known isGap text inner reads⟩
  cases m with
  | zero =>
    cases value
    exact written reads
  | succ m =>
    rw [evaluate_negated r m kind operator argument] at value
    obtain ⟨u, inside, value⟩ := Outcome.bind_eq_ok.mp value
    obtain ⟨x?, read, rfl⟩ := Outcome.map_eq_ok.mp value
    cases x? with
    | none => exact written reads
    | some x =>
      obtain ⟨p, number, readsOperand⟩ := exists_reads read
      have negated : q = -p := reads.unique (reads_text (Double.value?_neg number))
      rw [negated, neg_neg]
      exact ⟨m, Nat.le_of_succ_le_succ le, u, inside, readsOperand⟩

/-- The number of an operation comes from its folded operands, as its source is no number. -/
theorem exists_operand_values {left right : Site} {sign : Text}
    (kind : s.node.kind = .binaryExpression)
    (operator : s.file.textOf? (s.node.child? .operator) = sign)
    (hl : s.child? .left = some left) (hr : s.child? .right = some right)
    (unread : ∀ x, Numeral.reduced? s.text ≠ .ok (some x))
    (value : evaluate r m s = .ok t) (reads : Reads t q) :
    ∃ k a b, m = k + 1 ∧ evaluate r k left = .ok a ∧ evaluate r k right = .ok b ∧
      foldedBinary sign a b = .ok (some t) := by
  obtain ⟨x, read, -⟩ := reads
  cases m with
  | zero =>
    cases value
    exact absurd read (unread x)
  | succ m =>
    rw [evaluate_binary r m kind hl hr, operator] at value
    obtain ⟨a, ha, value⟩ := Outcome.bind_eq_ok.mp value
    obtain ⟨b, hb, value⟩ := Outcome.bind_eq_ok.mp value
    obtain ⟨t?, folded, rfl⟩ := Outcome.map_eq_ok.mp value
    cases t? with
    | none => exact absurd read (unread x)
    | some t => exact ⟨m, a, b, rfl, ha, hb, folded⟩

theorem deeper_of_succ (le : m ≤ n) (value : evaluate r m s = .ok t) (reads : Reads t q)
    (step : ∀ k, n = k + 1 → ∃ t', evaluate r (k + 1) s = .ok t' ∧ Reads t' q) :
    ∃ t', evaluate r n s = .ok t' ∧ Reads t' q := by
  cases n with
  | zero =>
    cases Nat.le_zero.mp le
    exact ⟨t, value, reads⟩
  | succ n => exact step n rfl

/-- A number that is found at some depth is found at every greater depth. -/
theorem evaluate_deeper (h : IsArithmetic IsProper s) (le : m ≤ n)
    (value : evaluate r m s = .ok t) (reads : Reads t q) :
    ∃ t', evaluate r n s = .ok t' ∧ Reads t' q := by
  have known : ∀ t, IsProper t → Numeral.Literal (t.filter (· != chr '_')) := fun _ proper =>
    proper.1
  have whole := h
  induction h generalizing m n t q with
  | literal kind proper =>
    refine deeper_of_succ r le value reads fun n _ => ?_
    exact deeper_literal r kind proper value reads
  | @group s inner _ _ kind head _ _ text part ih =>
    refine deeper_of_succ r le value reads fun n eq => ?_
    subst eq
    cases m with
    | zero =>
      cases value
      obtain ⟨x, read, -⟩ := reads
      exact absurd read (not_reads_group known whole (by rw [text]; exact List.mem_cons_self))
    | succ m =>
      rw [evaluate_group r m kind head] at value
      rw [evaluate_group r n kind head]
      exact ih (Nat.le_of_succ_le_succ le) value reads part
  | @negated s operand gap kind operator argument isGap text part ih =>
    refine deeper_of_succ r le value reads fun n eq => ?_
    subst eq
    obtain ⟨k, below, u, inside, readsOperand⟩ :=
      exists_operand_value r whole kind operator argument isGap text part le value reads
    obtain ⟨u', inside', y, read, number⟩ := ih below inside readsOperand part
    refine ⟨y.neg.text, ?_, reads_text (by rw [Double.value?_neg number, neg_neg])⟩
    exact evaluate_negated_number r kind operator argument inside' read
  | @binary s left right sign before behind kind isSign operator hl hr isGap isGap' text pl pr
      ihl ihr =>
    refine deeper_of_succ r le value reads fun n eq => ?_
    subst eq
    obtain ⟨k, a, b, rfl, ha, hb, folded⟩ := exists_operand_values r kind operator hl hr
      (fun x => not_reads_binary known whole isSign isGap text pl) value reads
    obtain ⟨x, y, z, readA, readB, result, finite, rfl⟩ := foldedBinary_eq_some.mp folded
    obtain ⟨p, valueX, readsA⟩ := exists_reads readA
    obtain ⟨p', valueY, readsB⟩ := exists_reads readB
    obtain ⟨c, valueZ⟩ := Double.exists_value? finite
    obtain ⟨a', ha', x', readA', valueX'⟩ := ihl (Nat.le_of_succ_le_succ le) ha readsA pl
    obtain ⟨b', hb', y', readB', valueY'⟩ := ihr (Nat.le_of_succ_le_succ le) hb readsB pr
    obtain ⟨z', result', valueZ'⟩ :=
      arithmetic_congr valueX valueX' valueY valueY' result valueZ
    have folded' : foldedBinary sign a' b' = .ok (some z'.text) := foldedBinary_eq_some.mpr
      ⟨x', y', z', readA', readB', result', Double.isFinite_of_value? valueZ', rfl⟩
    refine ⟨z'.text, ?_, ?_⟩
    · rw [evaluate_binary r n kind hl hr, ha', hb', operator]
      show (·.getD s.text) <$> foldedBinary sign a' b' = _
      rw [folded']
      rfl
    · rw [reads.unique (reads_text valueZ)]
      exact reads_text valueZ'

end

/-- A site inside of parentheses and minus signs: how many there are, and whether those of the
minus signs are odd. -/
inductive Wraps : Nat → Bool → Site → Site → Prop where
  | bare {s : Site} : Wraps 0 false s s
  | group {k : Nat} {odd : Bool} {s inner core : Site} :
      s.node.kind = .parenthesizedExpression → s.proper.head? = some inner →
      Wraps k odd inner core → Wraps (k + 1) odd s core
  | negated {k : Nat} {odd : Bool} {s operand core : Site} : s.node.kind = .unaryExpression →
      s.file.textOf? (s.node.child? .operator) = txt "-" → s.child? .argument = some operand →
      Wraps k odd operand core → Wraps (k + 1) (!odd) s core

theorem Wraps.reads (r : Resolver) {k n : Nat} {odd : Bool} {s core : Site} {t : Text} {q : ℚ}
    (h : Wraps k odd s core) (value : evaluate r n core = .ok t) (reads : Reads t q) :
    ∃ t', evaluate r (n + k) s = .ok t' ∧ Reads t' (Double.withSign odd q) := by
  induction h with
  | bare => exact ⟨t, value, reads⟩
  | group kind head _ ih =>
    obtain ⟨t', inside, reads'⟩ := ih value
    exact ⟨t', (evaluate_group r _ kind head).trans inside, reads'⟩
  | @negated k odd s operand core kind operator argument _ ih =>
    obtain ⟨t', inside, x, read, number⟩ := ih value
    have negated : x.neg.value? = some (Double.withSign (!odd) q) := by
      rw [Double.value?_neg number]
      cases odd <;> simp [Double.withSign]
    refine ⟨x.neg.text, ?_, reads_text negated⟩
    exact evaluate_negated_number r kind operator argument inside read

/-- Depth and numbers. For arithmetic without misread literals, a number that is found within a
limit is found within every larger limit too. A misread literal inside of parentheses and minus
signs is one number where the limit just does not reach it, and a smaller one within all larger
limits. -/
theorem number_of_deeper (r : Resolver) {s : Site} :
    (IsArithmetic IsProper s → ∀ limit limit' t x, limit ≤ limit' → value r limit s = .ok t →
      Numeral.reduced? t = .ok (some x) →
        ∃ t' y q, value r limit' s = .ok t' ∧ Numeral.reduced? t' = .ok (some y) ∧
          x.value? = some q ∧ y.value? = some q) ∧
    ∀ k odd core n, Wraps k odd s core → core.node.kind = .number → Numeral.IsMisread core.text →
      Numeral.Digits 10 core.text n → n ≤ Double.exactBound →
        ∃ m < n, (∃ t, value r (k - 1) s = .ok t ∧ Reads t (Double.withSign odd n)) ∧
          ∀ limit : Int, k ≤ limit →
            ∃ t, value r limit s = .ok t ∧ Reads t (Double.withSign odd m) := by
  constructor
  · intro arithmetic limit limit' t x le found read
    obtain ⟨q, number, reads⟩ := exists_reads read
    obtain ⟨t', found', y, read', number'⟩ := evaluate_deeper r arithmetic
      (show (limit + 1).toNat ≤ (limit' + 1).toNat by omega) found reads
    exact ⟨t', y, q, found', read', number, number'⟩
  · intro k odd core n wraps kind misread digits small
    obtain ⟨m, less, x, y, read, number, literal, number'⟩ := misread.numbers digits small
    refine ⟨m, less, ?_, ?_⟩
    · obtain ⟨t, found, reads⟩ := wraps.reads r (n := 0) rfl ⟨x, read, number⟩
      refine ⟨t, ?_, reads⟩
      rw [value, show ((k : Int) - 1 + 1).toNat = 0 + k by omega]
      exact found
    · intro limit le
      obtain ⟨j, depth⟩ : ∃ j : Nat, (limit + 1).toNat = j + 1 + k :=
        ⟨(limit - k).toNat, by omega⟩
      have folded : evaluate r (j + 1) core = .ok y.text := by
        have same : core.file.numberOf? core.node = .ok (some y) := literal
        rw [evaluate_number r j kind, same]
        rfl
      rw [value, depth]
      exact wraps.reads r folded (reads_text number')

/-- Whether a site has arithmetic over known literals in its usual format: a space on either side of
an operator and no other gap. The number bounds the height. -/
def isFormatted (known : Text → Bool) : Nat → Site → Bool
  | 0, _ => false
  | n + 1, s =>
    let operator := s.file.textOf? (s.node.child? .operator)
    match s.node.kind with
    | .number => known s.text
    | .parenthesizedExpression => s.proper.head?.any fun inner =>
      s.text == chr '(' :: (inner.text ++ [chr ')']) && isFormatted known n inner
    | .unaryExpression => operator == txt "-" && (s.child? .argument).any fun operand =>
      s.text == chr '-' :: operand.text && isFormatted known n operand
    | .binaryExpression => arithmeticSigns.contains operator && (s.child? .left).any fun left =>
      (s.child? .right).any fun right =>
        s.text == left.text ++ txt " " ++ operator ++ txt " " ++ right.text &&
          isFormatted known n left && isFormatted known n right
    | _ => false

theorem isArithmetic_of_formatted {literals : Text → Prop} {known : Text → Bool}
    (sound : ∀ t, known t = true → literals t) {n : Nat} {s : Site}
    (h : isFormatted known n s = true) : IsArithmetic literals s := by
  have space : IsGap (txt " ") := .space (by decide : Parse.isSpace ' ' = true) .empty
  induction n generalizing s with
  | zero => cases h
  | succ n ih =>
    rw [isFormatted] at h
    split at h
    case h_1 kind => exact .literal kind (sound _ h)
    case h_2 kind =>
      rw [Option.any_eq_true] at h
      obtain ⟨inner, head, h⟩ := h
      rw [Bool.and_eq_true, beq_iff_eq] at h
      refine .group kind head .empty .empty ?_ (ih h.2)
      rw [h.1]
      simp
    case h_3 kind =>
      rw [Bool.and_eq_true, beq_iff_eq, Option.any_eq_true] at h
      obtain ⟨operator, operand, argument, h⟩ := h
      rw [Bool.and_eq_true, beq_iff_eq] at h
      exact .negated kind operator argument .empty h.1 (ih h.2)
    case h_4 kind =>
      rw [Bool.and_eq_true, List.contains_iff_mem, Option.any_eq_true] at h
      obtain ⟨sign, left, hl, h⟩ := h
      rw [Option.any_eq_true] at h
      obtain ⟨right, hr, h⟩ := h
      rw [Bool.and_eq_true, Bool.and_eq_true, beq_iff_eq] at h
      exact .binary kind sign rfl hl hr space space h.1.1 (ih h.1.2) (ih h.2)
    case h_5 => cases h

/-- The first expression of a file that is formatted and has a text. -/
def formatted? (file : SourceFile) (known : Text → Bool) (text : Text) : Option Site :=
  (file.sites fun s => isFormatted known 10 s && s.text == text).head?

theorem formatted?_eq_some {file : SourceFile} {known : Text → Bool} {text : Text} {s : Site}
    (h : formatted? file known text = some s) :
    s.file = file ∧ isFormatted known 10 s = true ∧ s.text = text := by
  obtain ⟨origin, -, facts⟩ := SourceFile.mem_sites_iff.mp (List.mem_of_head? h)
  rw [Bool.and_eq_true, beq_iff_eq] at facts
  exact ⟨origin, facts⟩

/-- A product of a negative number and a hexadecimal one at a limit that does not reach into its
factors, and a negated octal number. -/
theorem number_of_deeper_product :
    let file := SourceFile.ofChars ⟨false, [txt "a.ts"]⟩ "x = -7 * 0x10; y = -010".toList
    ∃ s s' core, s.file = file ∧ IsArithmetic IsProper s ∧
      value .textual 0 s = .ok (txt "-112") ∧
      (∃ t y, value .textual 5 s = .ok t ∧ Numeral.reduced? t = .ok (some y) ∧
        y.value? = some (-112)) ∧
      s'.file = file ∧ Wraps 1 true s' core ∧ Numeral.IsMisread core.text ∧
      ∃ m < 10, (∃ t, value .textual 0 s' = .ok t ∧ Reads t (-10)) ∧
        ∃ t, value .textual 5 s' = .ok t ∧ Reads t (-(m : Nat)) := by
  intro file
  have hexadecimal : Numeral.Digits 16 (txt "10") 16 := Numeral.digits_of_digits? le_rfl rfl
  have octal : Numeral.Digits 8 (txt "10") 8 := Numeral.digits_of_digits? (by decide) rfl
  have decimal : Numeral.Digits 10 (txt "010") 10 := Numeral.digits_of_digits? (by decide) rfl
  have proper : ∀ t, [txt "7", txt "0x10"].contains t = true → IsProper t := by
    intro t mem
    rcases List.mem_pair.mp (List.contains_iff_mem.mp mem) with rfl | rfl
    · refine ⟨.decimal (Numeral.decimal_ofNat 7), ?_⟩
      rintro ⟨u, m, form, -⟩
      exact absurd (List.cons.inj form).1 (by decide)
    · have letter : (16, chr 'x') ∈ Numeral.radixLetters := by decide
      refine ⟨.marked letter (by decide) hexadecimal, ?_⟩
      rintro ⟨u, m, form, digits, -⟩
      obtain ⟨d, digit⟩ := digits.of_mem (c := chr 'x') (by rw [← (List.cons.inj form).2]; decide)
      exact absurd (digit.appearance (by decide)).2.2.1 (by decide)
  have product : ((formatted? file [txt "7", txt "0x10"].contains (txt "-7 * 0x10")).map
      (value .textual 0)) = some (.ok (txt "-112")) := by
    decide +kernel
  obtain ⟨s, found, shown⟩ := Option.map_eq_some_iff.mp product
  obtain ⟨origin, formatted, -⟩ := formatted?_eq_some found
  have arithmetic := isArithmetic_of_formatted proper formatted
  obtain ⟨x, read, number⟩ := Numeral.reduced?_ofInt (i := -112) (by decide)
  obtain ⟨t, y, q, shown', read', number', sameNumber⟩ :=
    (number_of_deeper .textual).1 arithmetic 0 5 _ x (by decide) shown read
  have negated : ((file.sites fun s => s.node.kind == .unaryExpression &&
      s.text == txt "-010").head?.bind fun s => (s.child? .argument).map fun core =>
        (s.file.textOf? (s.node.child? .operator), core.node.kind, core.text)) =
      some (txt "-", .number, txt "010") := by
    decide +kernel
  obtain ⟨s', found', inside⟩ := Option.bind_eq_some_iff.mp negated
  obtain ⟨core, argument, eq⟩ := Option.map_eq_some_iff.mp inside
  simp only [Prod.mk.injEq] at eq
  obtain ⟨operator, number?, text⟩ := eq
  obtain ⟨mem, facts⟩ := List.mem_filter.mp (List.mem_of_head? found')
  obtain ⟨place, -, rfl⟩ := List.mem_map.mp mem
  rw [Bool.and_eq_true, beq_iff_eq] at facts
  have wraps : Wraps 1 true ⟨file, place⟩ core := .negated facts.1 operator argument .bare
  have misread : Numeral.IsMisread core.text := ⟨txt "10", 8, text, octal, le_rfl⟩
  obtain ⟨m, less, short, long⟩ := (number_of_deeper .textual).2 1 true core 10 wraps number?
    misread (text ▸ decimal) (by decide)
  refine ⟨s, ⟨file, place⟩, core, origin, arithmetic, shown, ⟨t, y, shown', read', ?_⟩, rfl, wraps,
    misread, m, less, ?_, long 5 (by decide)⟩
  · rw [sameNumber, ← number', number]
    rfl
  · exact short

/-- A negated octal literal inside of five parentheses is another number at the usual limit. -/
theorem octal_misread_at_limit :
    let file := SourceFile.ofChars ⟨false, [txt "a.ts"]⟩
      "const o = \x7b v: (((((-010))))) \x7d".toList
    ∃ s, s.file = file ∧ s.text = txt "(((((-010)))))" ∧
      IsArithmetic (fun t => Numeral.Literal (t.filter (· != chr '_'))) s ∧
      value .textual defaultLimit s = .ok (txt "-10") ∧
      value .textual (defaultLimit + 1) s = .ok (txt "-8") := by
  intro file
  have run : ((formatted? file [txt "010"].contains (txt "(((((-010)))))")).map fun s =>
      (value .textual defaultLimit s, value .textual (defaultLimit + 1) s)) =
      some (.ok (txt "-10"), .ok (txt "-8")) := by
    decide +kernel
  obtain ⟨s, found, eq⟩ := Option.map_eq_some_iff.mp run
  rw [Prod.mk.injEq] at eq
  obtain ⟨origin, formatted, text⟩ := formatted?_eq_some found
  refine ⟨s, origin, text, isArithmetic_of_formatted ?_ formatted, eq.1, eq.2⟩
  intro t mem
  rw [List.mem_singleton.mp (List.contains_iff_mem.mp mem)]
  have digits : Numeral.Digits 10 (txt "010") 10 := Numeral.digits_of_digits? (by decide) rfl
  exact .decimal (.whole (by decide) digits .absent)

end Defaults

end ParamSchema
