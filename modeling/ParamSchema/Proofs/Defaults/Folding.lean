import ParamSchema.Proofs.Defaults.Evaluation
import ParamSchema.Proofs.Layout.Covering
import ParamSchema.Proofs.Layout.Slices
import ParamSchema.Proofs.Numerals.Literals

/-!
Exact folding. The default value of an arithmetic expression over integer literals is the decimal
text of its exact value, as long as no part of it leaves the integers up to `2 ^ 53`; an expression
with a division by zero is kept as it is written (`Defaults.value_of_written`). Every level prints
its result and the level above reads it again, so the induction over the expression rests on the
digits of an exact integer being read as that integer.
-/

namespace ParamSchema.Defaults

/-! ### Expressions and their meaning -/

inductive Operator where
  | add
  | sub
  | mul
  | div
  | rem
  deriving DecidableEq, Repr

/-- An arithmetic expression over literals, each with the text and the number that it spells. -/
inductive Expression where
  | literal (written : Text) (n : Nat)
  | group (inner : Expression)
  | negated (operand : Expression)
  | binary (operator : Operator) (left right : Expression)
  deriving DecidableEq, Repr

/-- The exact value of an expression. A division by zero has none, and what is no integer or is
beyond `2 ^ 53` is not exact. -/
inductive Meaning where
  | number (v : Int)
  | undefined
  | inexact
  deriving DecidableEq, Repr

namespace Meaning

def ofInt (v : Int) : Meaning := if v.natAbs ≤ Double.exactBound then .number v else .inexact

def neg : Meaning → Meaning
  | .number v => .number (-v)
  | .undefined => .undefined
  | .inexact => .inexact

/-- A part without an exact value decides for the whole, and one that is undefined comes next. -/
def both (f : Int → Int → Meaning) : Meaning → Meaning → Meaning
  | .number a, .number b => f a b
  | .inexact, _ => .inexact
  | _, .inexact => .inexact
  | _, _ => .undefined

theorem ofInt_eq_number {v w : Int} :
    ofInt v = .number w ↔ v.natAbs ≤ Double.exactBound ∧ v = w := by
  by_cases small : v.natAbs ≤ Double.exactBound
  · simp [ofInt, small]
  · simp [ofInt, small]

theorem ofInt_ne_undefined (v : Int) : ofInt v ≠ .undefined := by
  rw [ofInt]
  split <;> nofun

end Meaning

def Operator.text : Operator → Text
  | .add => txt "+"
  | .sub => txt "-"
  | .mul => txt "*"
  | .div => txt "/"
  | .rem => txt "%"

/-- The operator on exact numbers; a remainder has the sign of the dividend. -/
def Operator.apply : Operator → Int → Int → Meaning
  | .add, a, b => .ofInt (a + b)
  | .sub, a, b => .ofInt (a - b)
  | .mul, a, b => .ofInt (a * b)
  | .div, a, b => if b = 0 then .undefined else if b ∣ a then .ofInt (a / b) else .inexact
  | .rem, a, b => if b = 0 then .undefined else .ofInt (a.tmod b)

namespace Expression

def meaning : Expression → Meaning
  | .literal _ n => .ofInt n
  | .group e => e.meaning
  | .negated e => e.meaning.neg
  | .binary operator left right => .both operator.apply left.meaning right.meaning

def height : Expression → Nat
  | .literal .. => 0
  | .group e => e.height + 1
  | .negated e => e.height + 1
  | .binary _ left right => max left.height right.height + 1

/-- Whether every literal spells its number; underscores do not count. -/
def IsSpelled : Expression → Prop
  | .literal written n => Numeral.Spells (written.filter (· != chr '_')) n
  | .group e => e.IsSpelled
  | .negated e => e.IsSpelled
  | .binary _ left right => left.IsSpelled ∧ right.IsSpelled

/-- Whether an expression is what is written at a site; comments may stand in parentheses. -/
def isWritten : Expression → Site → Bool
  | .literal written _, s => s.node.kind == .number && s.text == written
  | .group e, s =>
    s.node.kind == .parenthesizedExpression && s.proper.head?.any fun inner => e.isWritten inner
  | .negated e, s =>
    s.node.kind == .unaryExpression && s.file.textOf? (s.node.child? .operator) == txt "-" &&
      (s.child? .argument).any fun operand => e.isWritten operand
  | .binary operator left right, s =>
    s.node.kind == .binaryExpression &&
      s.file.textOf? (s.node.child? .operator) == operator.text &&
      ((s.child? .left).any fun operand => left.isWritten operand) &&
      (s.child? .right).any fun operand => right.isWritten operand

end Expression

/-! ### Arithmetic on texts -/

theorem apply_small {operator : Operator} {a b v : Int} (h : operator.apply a b = .number v) :
    v.natAbs ≤ Double.exactBound := by
  have exact {w : Int} (eq : Meaning.ofInt w = .number v) : v.natAbs ≤ Double.exactBound := by
    obtain ⟨small, rfl⟩ := Meaning.ofInt_eq_number.mp eq
    exact small
  cases operator with
  | add => exact exact h
  | sub => exact exact h
  | mul => exact exact h
  | div =>
    rw [Operator.apply] at h
    split_ifs at h
    exact exact h
  | rem =>
    rw [Operator.apply] at h
    split_ifs at h
    exact exact h

/-- Doubles that are exact numbers are combined exactly. -/
theorem arithmetic_of_number {operator : Operator} {x y : Double} {a b v : Int}
    (hx : x.value? = some (a : ℚ)) (hy : y.value? = some (b : ℚ))
    (ha : a.natAbs ≤ Double.exactBound) (h : operator.apply a b = .number v) :
    ∃ z, arithmetic operator.text x y = some z ∧ z.value? = some (v : ℚ) := by
  have small := apply_small h
  have fits := Double.representable_int small
  cases operator with
  | add =>
    obtain ⟨-, rfl⟩ := Meaning.ofInt_eq_number.mp h
    push_cast at fits ⊢
    exact ⟨x + y, rfl, Double.value?_add hx hy fits⟩
  | sub =>
    obtain ⟨-, rfl⟩ := Meaning.ofInt_eq_number.mp h
    push_cast at fits ⊢
    exact ⟨x - y, rfl, Double.value?_sub hx hy fits⟩
  | mul =>
    obtain ⟨-, rfl⟩ := Meaning.ofInt_eq_number.mp h
    push_cast at fits ⊢
    exact ⟨x * y, rfl, Double.value?_mul hx hy fits⟩
  | div =>
    rw [Operator.apply] at h
    split_ifs at h with zero divides
    obtain ⟨-, rfl⟩ := Meaning.ofInt_eq_number.mp h
    have divisor : (b : ℚ) ≠ 0 := by exact_mod_cast zero
    have nonzero : y.isZero = false := by
      rw [← Bool.not_eq_true, Double.isZero_iff hy]
      exact divisor
    rw [Int.cast_div divides divisor] at fits ⊢
    refine ⟨x / y, ?_, Double.value?_div hx hy divisor fits⟩
    show (if y.isZero then none else some (x / y)) = _
    rw [nonzero]
    rfl
  | rem =>
    rw [Operator.apply] at h
    split_ifs at h with zero
    obtain ⟨-, rfl⟩ := Meaning.ofInt_eq_number.mp h
    have divisor : (b : ℚ) ≠ 0 := by exact_mod_cast zero
    have nonzero : y.isZero = false := by
      rw [← Bool.not_eq_true, Double.isZero_iff hy]
      exact divisor
    refine ⟨x % y, ?_, Double.value?_rem hx hy zero ha⟩
    show (if y.isZero then none else some (x % y)) = _
    rw [nonzero]
    rfl

theorem arithmetic_of_undefined {operator : Operator} (x : Double) {y : Double} {a b : Int}
    (hy : y.value? = some (b : ℚ)) (h : operator.apply a b = .undefined) :
    arithmetic operator.text x y = none := by
  have zero (eq : b = 0) : y.isZero = true := by
    rw [Double.isZero_iff hy, eq, Int.cast_zero]
  cases operator with
  | add => exact absurd h (Meaning.ofInt_ne_undefined _)
  | sub => exact absurd h (Meaning.ofInt_ne_undefined _)
  | mul => exact absurd h (Meaning.ofInt_ne_undefined _)
  | div =>
    rw [Operator.apply] at h
    split_ifs at h with divisor
    · show (if y.isZero then none else some (x / y)) = none
      rw [zero divisor, if_pos rfl]
    · exact absurd h (Meaning.ofInt_ne_undefined _)
  | rem =>
    rw [Operator.apply] at h
    split_ifs at h with divisor
    · show (if y.isZero then none else some (x % y)) = none
      rw [zero divisor, if_pos rfl]
    · exact absurd h (Meaning.ofInt_ne_undefined _)

/-- Only a division can be undefined. -/
theorem sign_of_undefined {operator : Operator} {a b : Int} (h : operator.apply a b = .undefined) :
    ∃ c ∈ Numeral.divisionSigns, c ∈ operator.text := by
  cases operator with
  | add => exact absurd h (Meaning.ofInt_ne_undefined _)
  | sub => exact absurd h (Meaning.ofInt_ne_undefined _)
  | mul => exact absurd h (Meaning.ofInt_ne_undefined _)
  | div => decide
  | rem => decide

theorem exactBound_lt : Double.exactBound < Double.integerBound := by decide

theorem text_of_exact {x : Double} {v : Int} (value : x.value? = some (v : ℚ))
    (small : v.natAbs ≤ Double.exactBound) : x.text = Text.ofInt v :=
  Double.text_of_value? value (Nat.lt_of_le_of_lt small exactBound_lt)

theorem foldedBinary_of_number {operator : Operator} {a b v : Int}
    (ha : a.natAbs ≤ Double.exactBound) (hb : b.natAbs ≤ Double.exactBound)
    (h : operator.apply a b = .number v) :
    foldedBinary operator.text (Text.ofInt a) (Text.ofInt b) = .ok (some (Text.ofInt v)) := by
  obtain ⟨x, readx, valuex⟩ := Numeral.reduced?_ofInt ha
  obtain ⟨y, ready, valuey⟩ := Numeral.reduced?_ofInt hb
  obtain ⟨z, result, valuez⟩ := arithmetic_of_number valuex valuey ha h
  rw [foldedBinary, readx, ready]
  show Except.ok (((arithmetic operator.text x y).filter Double.isFinite).map Double.text) = _
  rw [result, Option.filter_some_pos (Double.isFinite_of_value? valuez), Option.map_some,
    text_of_exact valuez (apply_small h)]

theorem foldedBinary_of_undefined {operator : Operator} {a b : Int}
    (ha : a.natAbs ≤ Double.exactBound) (hb : b.natAbs ≤ Double.exactBound)
    (h : operator.apply a b = .undefined) :
    foldedBinary operator.text (Text.ofInt a) (Text.ofInt b) = .ok none := by
  obtain ⟨x, readx, -⟩ := Numeral.reduced?_ofInt ha
  obtain ⟨y, ready, valuey⟩ := Numeral.reduced?_ofInt hb
  rw [foldedBinary, readx, ready]
  show Except.ok (((arithmetic operator.text x y).filter Double.isFinite).map Double.text) = _
  rw [arithmetic_of_undefined x valuey h]
  rfl

/-- An operand that denotes no number leaves the operation unfolded. -/
theorem foldedBinary_of_unread_left (operator : Text) {left right : Text} {y? : Option Double}
    (hl : Numeral.reduced? left = .ok none) (hr : Numeral.reduced? right = .ok y?) :
    foldedBinary operator left right = .ok none := by
  rw [foldedBinary, hl, hr]
  rfl

theorem foldedBinary_of_unread_right (operator : Text) {left right : Text} {x? : Option Double}
    (hl : Numeral.reduced? left = .ok x?) (hr : Numeral.reduced? right = .ok none) :
    foldedBinary operator left right = .ok none := by
  rw [foldedBinary, hl, hr]
  cases x? <;> rfl

/-! ### What is inside parentheses -/

/-- What stands inside the parentheses around an expression, if it has any. -/
inductive IsCore : Site → Site → Prop where
  | bare {s : Site} : s.node.kind ≠ .parenthesizedExpression → IsCore s s
  | group {s inner core : Site} : s.node.kind = .parenthesizedExpression →
      s.proper.head? = some inner → IsCore inner core → IsCore s core

/-- The sign of a division in a part of a site is in the text of the site. -/
theorem mem_text_of_part {s : Site} {part : Node} (covers : s.node.Covers)
    (child : part ∈ s.node.children) (proper : part.isAside = false) {c : CodePoint}
    (division : c ∈ Numeral.divisionSigns) (mem : c ∈ s.file.textOf part) : c ∈ s.text := by
  have bounds := covers.bounds child proper
  rcases List.mem_pair.mp division with rfl | rfl
  · exact SourceFile.mem_textOf_of_bounds (by decide) (by decide) bounds mem
  · exact SourceFile.mem_textOf_of_bounds (by decide) (by decide) bounds mem

theorem IsCore.mem_text {s core : Site} (h : IsCore s core) (covers : s.node.Covers)
    {c : CodePoint} (division : c ∈ Numeral.divisionSigns) (mem : c ∈ core.text) : c ∈ s.text := by
  induction h with
  | bare => exact mem
  | group _ head _ ih =>
    have part := Site.isPart_of_proper head
    have inner := ih (covers.part part.mem) mem
    exact mem_text_of_part covers part.mem part.proper division (part.file ▸ inner)

/-! ### One level of folding -/

/-- The text of a meaning at a site: the digits of a number, and the source inside the parentheses
where the meaning is undefined. Where nodes cover their parts, that source has the sign of a
division. -/
def Folds (r : Resolver) (n : Nat) (s : Site) : Meaning → Prop
  | .number v => v.natAbs ≤ Double.exactBound ∧ evaluate r n s = .ok (Text.ofInt v)
  | .undefined => s.node.Covers → ∃ core, IsCore s core ∧
      evaluate r n s = .ok core.text ∧ ∃ c ∈ Numeral.divisionSigns, c ∈ core.text
  | .inexact => True

variable {r : Resolver} {n : Nat} {s : Site}

theorem folds_literal {written : Text} {k : Nat} (kind : s.node.kind = .number)
    (text : s.text = written) (spelled : Numeral.Spells (written.filter (· != chr '_')) k) :
    Folds r (n + 1) s (.ofInt k) := by
  by_cases small : (k : Int).natAbs ≤ Double.exactBound
  · obtain ⟨x, read, value⟩ := spelled.literal? small
    have number : s.file.numberOf? s.node = .ok (some x) := by
      rw [← text] at read
      exact read
    rw [Meaning.ofInt, if_pos small]
    refine ⟨small, ?_⟩
    rw [evaluate_number r n kind, number]
    exact congrArg Except.ok (text_of_exact value small)
  · rw [Meaning.ofInt, if_neg small]
    trivial

theorem folds_group {inner : Site} {m : Meaning} (kind : s.node.kind = .parenthesizedExpression)
    (head : s.proper.head? = some inner) (h : Folds r n inner m) : Folds r (n + 1) s m := by
  have level := evaluate_group r n kind head
  cases m with
  | number v => exact ⟨h.1, level.trans h.2⟩
  | undefined =>
    intro covers
    obtain ⟨core, inside, text, division⟩ := h (covers.part (Site.isPart_of_proper head).mem)
    exact ⟨core, .group kind head inside, level.trans text, division⟩
  | inexact => trivial

/-- The text of an undefined part denotes no number. -/
theorem Folds.unread (h : Folds r n s .undefined) (covers : s.node.Covers) :
    ∃ t, evaluate r n s = .ok t ∧ Numeral.reduced? t = .ok none := by
  obtain ⟨core, -, text, c, division, mem⟩ := h covers
  exact ⟨core.text, text, Numeral.reduced?_division division mem⟩

/-- A number is read again by the level above. -/
theorem Folds.read {v : Int} (h : Folds r n s (.number v)) :
    ∃ x, evaluate r n s = .ok (Text.ofInt v) ∧ Numeral.reduced? (Text.ofInt v) = .ok (some x) ∧
      x.value? = some (v : ℚ) := by
  obtain ⟨small, text⟩ := h
  obtain ⟨x, read, value⟩ := Numeral.reduced?_ofInt small
  exact ⟨x, text, read, value⟩

/-- Around an undefined part a site is kept as it is written. -/
theorem folds_around {t : Site} {k : Nat} (bare : s.node.kind ≠ .parenthesizedExpression)
    (part : s.IsPart t) (h : Folds r k t .undefined)
    (text : t.node.Covers → evaluate r n s = .ok s.text) : Folds r n s .undefined := by
  intro covers
  have inner := covers.part part.mem
  obtain ⟨core, inside, -, c, division, mem⟩ := h inner
  have written := inside.mem_text inner division mem
  exact ⟨s, .bare bare, text inner, c, division,
    mem_text_of_part covers part.mem part.proper division (part.file ▸ written)⟩

theorem folds_negated {operand : Site} {m : Meaning} (kind : s.node.kind = .unaryExpression)
    (operator : s.file.textOf? (s.node.child? .operator) = txt "-")
    (argument : s.child? .argument = some operand) (h : Folds r n operand m) :
    Folds r (n + 1) s m.neg := by
  have level := evaluate_negated r n kind operator argument
  cases m with
  | number v =>
    obtain ⟨x, text, read, value⟩ := h.read
    have small : (-v).natAbs ≤ Double.exactBound := by rw [Int.natAbs_neg]; exact h.1
    have negated : (Double.neg x).value? = some ((-v : Int) : ℚ) := by
      rw [Int.cast_neg]
      exact Double.value?_neg value
    refine ⟨small, ?_⟩
    rw [level, text]
    show (fun x? => (x?.map (Double.text ∘ Double.neg)).getD s.text) <$>
      Numeral.reduced? (Text.ofInt v) = _
    rw [read]
    exact congrArg Except.ok (text_of_exact negated small)
  | undefined =>
    refine folds_around (by rw [kind]; decide) (Site.isPart_of_child? argument) h fun covers => ?_
    obtain ⟨t, text, unread⟩ := h.unread covers
    rw [level, text]
    show (fun x? => (x?.map (Double.text ∘ Double.neg)).getD s.text) <$> Numeral.reduced? t = _
    rw [unread]
    rfl
  | inexact => trivial

theorem folds_binary {operator : Operator} {left right : Site} {m m' : Meaning}
    (kind : s.node.kind = .binaryExpression)
    (sign : s.file.textOf? (s.node.child? .operator) = operator.text)
    (hl : s.child? .left = some left) (hr : s.child? .right = some right)
    (h : Folds r n left m) (h' : Folds r n right m') :
    Folds r (n + 1) s (.both operator.apply m m') := by
  have level {a b : Text} {t? : Option Text} (ha : evaluate r n left = .ok a)
      (hb : evaluate r n right = .ok b) (folded : foldedBinary operator.text a b = .ok t?) :
      evaluate r (n + 1) s = .ok (t?.getD s.text) := by
    rw [evaluate_binary r n kind hl hr, ha, hb, sign]
    show (·.getD s.text) <$> foldedBinary operator.text a b = _
    rw [folded]
    rfl
  have bare : s.node.kind ≠ .parenthesizedExpression := by
    rw [kind]
    decide
  cases m with
  | number a =>
    obtain ⟨x, text, read, -⟩ := h.read
    cases m' with
    | number b =>
      obtain ⟨y, text', read', -⟩ := h'.read
      show Folds r (n + 1) s (operator.apply a b)
      cases result : operator.apply a b with
      | number v =>
        exact ⟨apply_small result, level text text' (foldedBinary_of_number h.1 h'.1 result)⟩
      | undefined =>
        have unfolded := level text text' (foldedBinary_of_undefined h.1 h'.1 result)
        obtain ⟨c, division, mem⟩ := sign_of_undefined result
        cases found : s.node.child? .operator with
        | none =>
          rw [found] at sign
          rw [← sign] at mem
          cases mem
        | some o =>
          rw [found] at sign
          have child : o ∈ s.node.children := List.mem_of_find?_eq_some found
          have written : s.file.textOf o = operator.text := sign
          exact fun covers => ⟨s, .bare bare, unfolded, c, division,
            mem_text_of_part covers child (Node.isAside_of_child? found) division (written ▸ mem)⟩
      | inexact => trivial
    | undefined =>
      refine folds_around bare (Site.isPart_of_child? hr) h' fun covers => ?_
      obtain ⟨t', text', unread'⟩ := h'.unread covers
      exact level text text' (foldedBinary_of_unread_right _ read unread')
    | inexact => trivial
  | undefined =>
    cases m' with
    | number b =>
      obtain ⟨y, text', read', -⟩ := h'.read
      refine folds_around bare (Site.isPart_of_child? hl) h fun covers => ?_
      obtain ⟨t, text, unread⟩ := h.unread covers
      exact level text text' (foldedBinary_of_unread_left _ unread read')
    | undefined =>
      intro covers
      obtain ⟨t', text', unread'⟩ := h'.unread (covers.part (Site.isPart_of_child? hr).mem)
      refine folds_around bare (Site.isPart_of_child? hl) h (fun inner => ?_) covers
      obtain ⟨t, text, unread⟩ := h.unread inner
      exact level text text' (foldedBinary_of_unread_left _ unread unread')
    | inexact => trivial
  | inexact => trivial

/-! ### Expressions at sites -/

/-- An expression is folded to the text of its meaning when the levels reach all of it. -/
theorem folds_of_written (r : Resolver) (e : Expression) (spelled : e.IsSpelled) {n : Nat}
    {s : Site} (written : e.isWritten s = true) (reach : e.height < n) :
    Folds r n s e.meaning := by
  induction e generalizing n s with
  | literal text k =>
    obtain ⟨n, rfl⟩ : ∃ k, n = k + 1 := ⟨n - 1, by omega⟩
    rw [Expression.isWritten, Bool.and_eq_true] at written
    exact folds_literal (eq_of_beq written.1) (eq_of_beq written.2) spelled
  | group e ih =>
    obtain ⟨n, rfl⟩ : ∃ k, n = k + 1 := ⟨n - 1, by omega⟩
    rw [Expression.isWritten, Bool.and_eq_true, Option.any_eq_true] at written
    obtain ⟨kind, inner, head, written⟩ := written
    exact folds_group (eq_of_beq kind) head (ih spelled written (Nat.lt_of_succ_lt_succ reach))
  | negated e ih =>
    obtain ⟨n, rfl⟩ : ∃ k, n = k + 1 := ⟨n - 1, by omega⟩
    rw [Expression.isWritten, Bool.and_eq_true, Bool.and_eq_true, Option.any_eq_true] at written
    obtain ⟨⟨kind, sign⟩, operand, argument, written⟩ := written
    exact folds_negated (eq_of_beq kind) (eq_of_beq sign) argument
      (ih spelled written (Nat.lt_of_succ_lt_succ reach))
  | binary operator left right ihl ihr =>
    obtain ⟨n, rfl⟩ : ∃ k, n = k + 1 := ⟨n - 1, by omega⟩
    rw [Expression.isWritten, Bool.and_eq_true, Bool.and_eq_true, Bool.and_eq_true,
      Option.any_eq_true, Option.any_eq_true] at written
    obtain ⟨⟨⟨kind, sign⟩, sl, hl, writtenl⟩, sr, hr, writtenr⟩ := written
    have reach' : max left.height right.height < n := Nat.lt_of_succ_lt_succ reach
    exact folds_binary (eq_of_beq kind) (eq_of_beq sign) hl hr
      (ihl spelled.1 writtenl (by omega)) (ihr spelled.2 writtenr (by omega))

theorem not_program_of_written {e : Expression} {s : Site} (written : e.isWritten s = true) :
    s.node.kind ≠ .program := by
  intro kind
  cases e <;> simp [Expression.isWritten, kind] at written

/-- Exact folding: where the limit reaches the height of an expression, its default value is the
decimal text of its exact value; with a division by zero in it, the value is the source inside its
outer parentheses, which denotes no number. -/
theorem value_of_written (r : Resolver) {limit : Int} {e : Expression} {s : Site}
    (spelled : e.IsSpelled) (written : e.isWritten s = true) (reach : (e.height : Int) ≤ limit) :
    (∀ v, e.meaning = .number v → value r limit s = .ok (Text.ofInt v)) ∧
    (s.Of SourceFile.IsParsed → e.meaning = .undefined →
      ∃ core, IsCore s core ∧ value r limit s = .ok core.text ∧
        Numeral.reduced? core.text = .ok none) := by
  have folds := folds_of_written r e spelled written (show e.height < (limit + 1).toNat by omega)
  constructor
  · intro v eq
    rw [eq] at folds
    exact folds.2
  · intro parsed eq
    rw [eq] at folds
    have covers := Site.covers parsed (not_program_of_written written)
    obtain ⟨core, inside, text, c, division, mem⟩ := folds covers
    exact ⟨core, inside, text, Numeral.reduced?_division division mem⟩

/-- A remainder of a negative number by a difference of a hexadecimal and an octal literal, and a
sum with a division by zero. -/
theorem value_of_written_nested :
    let file := SourceFile.ofChars ⟨false, [txt "a.ts"]⟩
      "x = 2 * (/* c */ -7 % (0X1_0 - 013)); y = (8e0 / (3 - 3) + 1)".toList
    let product : Expression := .binary .mul (.literal (txt "2") 2)
      (.group (.binary .rem (.negated (.literal (txt "7") 7))
        (.group (.binary .sub (.literal (txt "0X1_0") 16) (.literal (txt "013") 11)))))
    let sum : Expression := .group (.binary .add (.binary .div (.literal (txt "8e0") 8)
      (.group (.binary .sub (.literal (txt "3") 3) (.literal (txt "3") 3)))) (.literal (txt "1") 1))
    ∃ s s', s.file = file ∧ product.isWritten s = true ∧ product.meaning = .number (-4) ∧
      value .textual 5 s = .ok (txt "-4") ∧ sum.isWritten s' = true ∧ sum.meaning = .undefined ∧
      ∃ core, IsCore s' core ∧ value .textual 5 s' = .ok core.text ∧
        Numeral.reduced? core.text = .ok none := by
  intro file product sum
  have run : ((file.sites fun s => product.isWritten s).head?.isSome &&
      (file.sites fun s => sum.isWritten s).head?.isSome) = true := by
    decide +kernel
  rw [Bool.and_eq_true] at run
  obtain ⟨s, found⟩ := Option.isSome_iff_exists.mp run.1
  obtain ⟨s', found'⟩ := Option.isSome_iff_exists.mp run.2
  obtain ⟨mem, known⟩ := List.mem_filter.mp (List.mem_of_head? found)
  obtain ⟨mem', known'⟩ := List.mem_filter.mp (List.mem_of_head? found')
  obtain ⟨place, -, site⟩ := List.mem_map.mp mem
  obtain ⟨place', walked, rfl⟩ := List.mem_map.mp mem'
  have parsed : Site.Of SourceFile.IsParsed ⟨file, place'⟩ :=
    ⟨⟨_, rfl⟩, Place.mem_walk_iff.mp walked⟩
  have octal : Numeral.Spells (txt "013") 11 :=
    .octal (by decide) ((Numeral.Digits.nil.snoc ⟨(by decide : 1 < 8), .inl rfl⟩).snoc
      ⟨(by decide : 3 < 8), .inl rfl⟩)
  have hexadecimal : Numeral.Spells (txt "0X10") 16 :=
    .marked (by decide : (16, chr 'X') ∈ Numeral.radixLetters) (by decide)
      ((Numeral.Digits.nil.snoc ⟨(by decide : 1 < 16), .inl rfl⟩).snoc
        ⟨(by decide : 0 < 16), .inl rfl⟩)
  have power : Numeral.Spells (txt "8e0") 8 := by
    have decimal : Numeral.Decimal (txt "8e0") ((8 : Nat) * 10 ^ (((0 : Nat) : Int))) :=
      .whole (by decide) (Numeral.digits_ofNat 8)
        (.written (by decide : chr 'e' ∈ txt "eE") Numeral.nil_mem_signs (by decide)
          (Numeral.digits_ofNat 0))
    rw [Nat.cast_zero, zpow_zero, mul_one] at decimal
    refine .decimal decimal fun u m _ _ eq => ?_
    have head : some (chr '8') = some (chr '0') := congrArg List.head? eq
    exact absurd head (by decide)
  have spelled : product.IsSpelled :=
    ⟨Numeral.spells_digit (by decide : 2 < 10), Numeral.spells_digit (by decide : 7 < 10),
      hexadecimal, octal⟩
  have spelled' : sum.IsSpelled :=
    ⟨⟨power, Numeral.spells_digit (by decide : 3 < 10), Numeral.spells_digit (by decide : 3 < 10)⟩,
      Numeral.spells_digit (by decide : 1 < 10)⟩
  obtain ⟨exact, -⟩ := value_of_written .textual spelled known
    (by decide : (product.height : Int) ≤ 5)
  obtain ⟨-, verbatim⟩ := value_of_written .textual spelled' known'
    (by decide : (sum.height : Int) ≤ 5)
  have digits : Text.ofInt (-4) = txt "-4" := by decide
  exact ⟨s, ⟨file, place'⟩, site ▸ rfl, known, by decide, digits ▸ exact (-4) (by decide), known',
    by decide, verbatim parsed (by decide)⟩

end ParamSchema.Defaults
