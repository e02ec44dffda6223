import Mathlib.Data.List.Basic
import Mathlib.Order.Basic
import ParamSchema.Proofs.Text.Pieces
import ParamSchema.Source.File

/-!
ASCII characters in the text of a node. A character of ASCII is in the text of bytes just when its
byte is among them (`Utf8.mem_decode_iff`); so what is in the text of a node is in the text of every
node that reaches as far (`SourceFile.mem_textOf_of_bounds`).
-/

namespace ParamSchema

namespace Utf8

/-- A character begun that cannot end in ASCII: its next byte is beyond ASCII, and the bits it will
have are too many. -/
def Owed.IsWide : Owed → Prop
  | .nothing => True
  | .bytes count low high bits => 0x80 ≤ low.toNat ∧ high.toNat ≤ 0xBF ∧
      if count ≤ 1 then 2 ≤ bits else 2 ≤ bits * 0x40 + (low.toNat - 0x80)

instance (owed : Owed) : Decidable owed.IsWide :=
  match owed with
  | .nothing => .isTrue trivial
  | .bytes .. => inferInstanceAs (Decidable (_ ∧ _))

theorem isWide_start (b : UInt8) : (start b).2.IsWide := by
  have all : ∀ n : Fin 0x100, (start n.val.toUInt8).2.IsWide := by decide +kernel
  have := all ⟨b.toNat, b.toNat_lt⟩
  rwa [Nat.toUInt8, UInt8.ofNat_toNat] at this

theorem isWide_step {owed : Owed} (wide : owed.IsWide) (b : UInt8) : (step owed b).2.IsWide := by
  cases owed with
  | nothing => exact isWide_start b
  | bytes count low high bits =>
    obtain ⟨above, below, filled⟩ := wide
    rw [step]
    split
    case isTrue fits =>
      simp only [Bool.and_eq_true, decide_eq_true_eq, UInt8.le_iff_toNat_le] at fits
      by_cases last : count ≤ 1
      · rw [if_pos last]
        trivial
      · rw [if_neg last] at filled ⊢
        refine ⟨by decide, by decide, ?_⟩
        have low : (0x80 : UInt8).toNat = 0x80 := rfl
        split <;> omega
    case isFalse => exact isWide_start b

theorem ofNat_eq_iff {c : Char} (h : c.toNat ≠ 0) (n : Nat) : c = Char.ofNat n ↔ n = c.toNat := by
  constructor
  · rintro rfl
    by_cases valid : n.isValidChar
    · have made : Char.ofNat n = Char.ofNatAux n valid := dif_pos valid
      rw [made]
      rfl
    · have zero : Char.ofNat n = '\x00' := dif_neg valid
      rw [zero] at h
      exact absurd rfl h
  · rintro rfl
    exact (Char.ofNat_toNat c).symm

theorem ne_unknownChar {c : Char} (ascii : c.toNat < 0x80) : c ≠ unknownChar := by
  rintro rfl
  exact absurd ascii (by decide)

section

variable {c : Char} (positive : c.toNat ≠ 0) (ascii : c.toNat < 0x80)

include positive ascii

theorem mem_start_iff (b : UInt8) : c ∈ (start b).1 ↔ b.toNat = c.toNat := by
  have other := ne_unknownChar ascii
  rw [start]
  split
  case isTrue small => rw [List.mem_singleton, ofNat_eq_iff positive]
  case isFalse large =>
    have beyond : b.toNat ≠ c.toNat := by
      rw [UInt8.lt_iff_toNat_lt] at large
      have : (0x80 : UInt8).toNat = 0x80 := rfl
      omega
    split_ifs <;> simp [beyond, other]

/-- A byte gives a character of ASCII just when it is its byte. -/
theorem mem_step_iff {owed : Owed} (wide : owed.IsWide) (b : UInt8) :
    c ∈ (step owed b).1 ↔ b.toNat = c.toNat := by
  cases owed with
  | nothing => exact mem_start_iff positive ascii b
  | bytes count low high bits =>
    obtain ⟨above, below, filled⟩ := wide
    rw [step]
    split
    case isTrue fits =>
      simp only [Bool.and_eq_true, decide_eq_true_eq, UInt8.le_iff_toNat_le] at fits
      have beyond : b.toNat ≠ c.toNat := by omega
      by_cases last : count ≤ 1
      · rw [if_pos last] at filled ⊢
        rw [List.mem_singleton, ofNat_eq_iff positive]
        omega
      · rw [if_neg last]
        simp [beyond]
    case isFalse =>
      show c ∈ unknownChar :: (start b).1 ↔ _
      rw [List.mem_cons, or_iff_right (ne_unknownChar ascii),
        mem_start_iff positive ascii]

theorem mem_decodeFrom_iff {owed : Owed} (wide : owed.IsWide) (bytes : List UInt8) :
    c ∈ decodeFrom owed bytes ↔ ∃ b ∈ bytes, b.toNat = c.toNat := by
  induction bytes generalizing owed with
  | nil =>
    cases owed with
    | nothing => simp [decodeFrom]
    | bytes => simp [decodeFrom, ne_unknownChar ascii]
  | cons b bytes ih =>
    have unfolded : decodeFrom owed (b :: bytes) =
        (step owed b).1 ++ decodeFrom (step owed b).2 bytes := by
      cases owed <;> rfl
    rw [unfolded, List.mem_append, mem_step_iff positive ascii wide, ih (isWide_step wide b)]
    simp

theorem mem_decode_iff (bytes : List UInt8) :
    c ∈ decode bytes ↔ ∃ b ∈ bytes, b.toNat = c.toNat := by
  have wide : Owed.nothing.IsWide := trivial
  exact mem_decodeFrom_iff positive ascii wide bytes

end

end Utf8

namespace SourceFile

theorem mem_extract_iff {bytes : ByteArray} {a b : Nat} {x : UInt8} :
    x ∈ (bytes.extract a b).data.toList ↔ ∃ i, a ≤ i ∧ i < b ∧ bytes.data.toList[i]? = some x := by
  rw [ByteArray.data_extract, Array.toList_extract, List.extract_eq_take_drop,
    List.mem_iff_getElem?]
  constructor
  · rintro ⟨i, found⟩
    rw [List.getElem?_take, List.getElem?_drop] at found
    split at found
    case isTrue inside => exact ⟨a + i, by omega, by omega, found⟩
    case isFalse => cases found
  · rintro ⟨i, left, right, found⟩
    refine ⟨i - a, ?_⟩
    rw [List.getElem?_take, if_pos (by omega), List.getElem?_drop, Nat.add_sub_cancel' left, found]

theorem mem_sliceOf_iff {c : Char} (positive : c.toNat ≠ 0) (ascii : c.toNat < 0x80)
    {bytes : ByteArray} {a b : Nat} :
    chr c ∈ sliceOf bytes a b ↔ ∃ x ∈ (bytes.extract a b).data.toList, x.toNat = c.toNat := by
  rw [← Utf8.mem_decode_iff positive ascii, sliceOf, Text.mem_ofChars]

theorem mem_textOf_of_bounds {c : Char} (positive : c.toNat ≠ 0) (ascii : c.toNat < 0x80)
    {file : SourceFile} {m n : Node} (bounds : n.start ≤ m.start ∧ m.stop ≤ n.stop)
    (h : chr c ∈ file.textOf m) : chr c ∈ file.textOf n := by
  obtain ⟨x, mem, eq⟩ := (mem_sliceOf_iff positive ascii).mp h
  obtain ⟨i, above, below, found⟩ := mem_extract_iff.mp mem
  refine (mem_sliceOf_iff positive ascii).mpr ⟨x, mem_extract_iff.mpr ⟨i, ?_, ?_, found⟩, eq⟩
  · omega
  · omega

end SourceFile

end ParamSchema
