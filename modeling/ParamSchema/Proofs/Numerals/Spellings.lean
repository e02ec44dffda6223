import ParamSchema.Proofs.Defaults.Evaluation
import ParamSchema.Proofs.Numerals.Agreement
import ParamSchema.Shape.Describe

/-!
One number, many spellings. Up to `2 ^ 53` every literal of a natural number is read as the double
of that number (`Numeral.Spells.literal?_eq`), so it gives the plain decimal digits of the number
wherever its text is shown: as a default value and as the name of a property
(`Numeral.Spells.gives`). Different numbers have different digits, so spellings of one number can be
told from those of another by what they give (`Numeral.spellings_give_digits`).
-/

namespace ParamSchema.Numeral

/-- What a number literal gives: the text of a default value, where values are folded at all, and
the name of a property that has the literal as its key. -/
structure Gives (s : Site) (w : Text) : Prop where
  default (r : Resolver) {limit : Int} : 0 ≤ limit → Defaults.value r limit s = .ok w
  key : s.file.propertyName (some s.node) = .ok w

theorem Gives.unique {s : Site} {w w' : Text} (h : Gives s w) (h' : Gives s w') : w = w' :=
  Except.ok.inj (h.key.symm.trans h'.key)

theorem ofInteger_eq_ofNat {n : Nat} (small : n ≤ Double.exactBound) :
    ofInteger n = .ok (Double.ofNat n) := by
  have value : (Double.ofNat n).value? = some (n : ℚ) :=
    Double.value?_ofRatio false Nat.one_pos (by simp) (Double.representable_int (i := n) small)
  obtain ⟨s, m, e, canonical, form, -⟩ := Double.value?_eq_some.mp value
  rw [ofInteger, form]

/-- Whatever the spelling of an exact integer, it is read as one and the same double. -/
theorem Spells.literal?_eq {t : Text} {n : Nat} (h : Spells (t.filter (· != chr '_')) n)
    (small : n ≤ Double.exactBound) : Numeral.literal? t = .ok (some (Double.ofNat n)) := by
  generalize form : t.filter (· != chr '_') = u at h
  have whole := ofInteger_eq_ofNat small
  cases h with
  | marked known filled digits => rw [literal?_marked known form filled digits, whole]; rfl
  | octal filled digits => rw [literal?_octal form filled digits, whole]; rfl
  | decimal decimal other =>
    have same : Double.ofDecimal false n 0 = Double.ofNat n :=
      Except.ok.inj ((ofInteger_eq_ofDecimal small).symm.trans whole)
    rw [literal?_decimal form decimal other (k := 0) (by rw [zpow_zero, mul_one]), same]

/-- The double of an exact integer is printed with the digits of the integer. -/
theorem text_ofNat {n : Nat} (small : n ≤ Double.exactBound) :
    (Double.ofNat n).value? = some (n : ℚ) ∧ (Double.ofNat n).text = Text.ofNat n := by
  obtain ⟨x, read, value⟩ := ofInteger_exact small
  have same : Double.ofNat n = x := Except.ok.inj ((ofInteger_eq_ofNat small).symm.trans read)
  have bounded : (n : Int).natAbs < Double.integerBound :=
    Nat.lt_of_le_of_lt small (by decide)
  rw [same]
  exact ⟨value, Double.text_of_value? (i := n) value bounded⟩

theorem Spells.gives {s : Site} {n : Nat} (h : Spells (s.text.filter (· != chr '_')) n)
    (small : n ≤ Double.exactBound) (kind : s.node.kind = .number) : Gives s (Text.ofNat n) := by
  have number : s.file.numberOf? s.node = .ok (some (Double.ofNat n)) := h.literal?_eq small
  have digits := (text_ofNat small).2
  constructor
  case default =>
    intro r limit positive
    obtain ⟨depth, level⟩ := Defaults.exists_level positive
    rw [level, Defaults.evaluate_number r depth kind, number, ← digits]
    rfl
  case key =>
    rw [SourceFile.propertyName, kind, ← digits]
    simp only [number]
    rfl

theorem ofNat_inj {n m : Nat} : Text.ofNat n = Text.ofNat m ↔ n = m := by
  constructor
  · intro same
    exact (digits_ofNat n).unique (same ▸ digits_ofNat m) (by decide)
  · rintro rfl
    rfl

/-- Every spelling of a natural number up to `2 ^ 53`, with underscores anywhere in it, is read as
exactly that number and gives its plain digits, as a default value and as a key. So two spellings
give the same text exactly when they denote the same number. -/
theorem spellings_give_digits {n m : Nat} (small : n ≤ Double.exactBound)
    (small' : m ≤ Double.exactBound) {t u : Text} (first : Spells (t.filter (· != chr '_')) n)
    (second : Spells (u.filter (· != chr '_')) m) :
    literal? t = .ok (some (Double.ofNat n)) ∧ (Double.ofNat n).value? = some (n : ℚ) ∧
      (∀ s : Site, s.node.kind = .number → s.text = t → Gives s (Text.ofNat n)) ∧
      ∀ s s' : Site, s.node.kind = .number → s.text = t → s'.node.kind = .number → s'.text = u →
        ∀ w w', Gives s w → Gives s' w' → (w = w' ↔ n = m) := by
  refine ⟨first.literal?_eq small, (text_ofNat small).1, ?_, ?_⟩
  · rintro s kind rfl
    exact first.gives small kind
  · rintro s s' kind rfl kind' rfl w w' gives gives'
    rw [gives.unique (first.gives small kind), gives'.unique (second.gives small' kind'), ofNat_inj]

/-- A hexadecimal key with an underscore and an octal value with a leading zero, which are both
thirty-one. -/
theorem spellings_give_digits_mixed :
    let file := SourceFile.ofChars ⟨false, [txt "a.ts"]⟩
      "const o = \x7b 0X1_F: 037 \x7d".toList
    Spells ((txt "0X1_F").filter (· != chr '_')) 31 ∧
      Spells ((txt "037").filter (· != chr '_')) 31 ∧
      ∃ s s' : Site, s.file = file ∧ s'.file = file ∧ s.text = txt "0X1_F" ∧
        s'.text = txt "037" ∧ Gives s (txt "31") ∧ Gives s' (txt "31") := by
  intro file
  have run : ((file.sites fun s => s.node.kind == .number && s.text == txt "0X1_F").head?.isSome &&
      (file.sites fun s => s.node.kind == .number && s.text == txt "037").head?.isSome) = true := by
    decide +kernel
  have found {t : Text}
      (h : (file.sites fun s => s.node.kind == .number && s.text == t).head?.isSome = true) :
      ∃ s : Site, s.file = file ∧ s.node.kind = .number ∧ s.text = t := by
    obtain ⟨s, head⟩ := Option.isSome_iff_exists.mp h
    obtain ⟨mem, known⟩ := List.mem_filter.mp (List.mem_of_head? head)
    obtain ⟨place, -, rfl⟩ := List.mem_map.mp mem
    rw [Bool.and_eq_true] at known
    exact ⟨_, rfl, eq_of_beq known.1, eq_of_beq known.2⟩
  rw [Bool.and_eq_true] at run
  obtain ⟨s, origin, kind, text⟩ := found run.1
  obtain ⟨s', origin', kind', text'⟩ := found run.2
  have hexadecimal : Spells ((txt "0X1_F").filter (· != chr '_')) 31 :=
    .marked (by decide : (16, chr 'X') ∈ radixLetters) (by decide : txt "1F" ≠ [])
      (digits_of_digits? (by decide) rfl)
  have octal : Spells ((txt "037").filter (· != chr '_')) 31 :=
    .octal (by decide : txt "37" ≠ []) (digits_of_digits? (by decide) rfl)
  have small : 31 ≤ Double.exactBound := by decide
  obtain ⟨-, -, gives, -⟩ := spellings_give_digits small small hexadecimal octal
  obtain ⟨-, -, gives', -⟩ := spellings_give_digits small small octal hexadecimal
  exact ⟨hexadecimal, octal, s, s', origin, origin', text, text', gives s kind text,
    gives' s' kind' text'⟩

end ParamSchema.Numeral
