import ParamSchema.Proofs.Layout.Trivia
import ParamSchema.Proofs.Payload.Bytes
import ParamSchema.Source.File

/-!
Segments of a text. The bytes of a file are those of its characters one behind the other, so what a
slice of the bytes between two places of the text spells is the characters there (`Segment.slice`),
and segments that follow each other are put together (`Segment.append`).
-/

namespace ParamSchema

/-! ### Bytes of characters -/

namespace Utf8

theorem encodePoint_ofChar (c : Char) :
    encodePoint (CodePoint.ofChar c) = String.utf8EncodeChar c := by
  have bound : c.val.toNat < 0x110000 := CodePoint.toNat_lt c
  have val : (CodePoint.ofChar c).val = c.val.toNat := rfl
  simp only [encodePoint, String.utf8EncodeChar, val, Nat.toUInt8]
  generalize c.val.toNat = n at bound
  have last : 0x80 + n % 0x40 = n % 64 + 128 := by omega
  have second : 0x80 + n / 0x40 % 0x40 = n / 64 % 64 + 128 := by omega
  have third : 0x80 + n / 0x1000 % 0x40 = n / 4096 % 64 + 128 := by omega
  by_cases one : n < 0x80
  · rw [if_pos one, if_pos (by omega)]
  rw [if_neg one, if_neg (show ¬ n ≤ 127 by omega)]
  by_cases two : n < 0x800
  · rw [if_pos two, if_pos (by omega), last, show 0xC0 + n / 0x40 = n / 64 % 32 + 192 by omega]
  rw [if_neg two, if_neg (show ¬ n ≤ 2047 by omega)]
  by_cases three : n < 0x10000
  · rw [if_pos three, if_pos (by omega), last, second,
      show 0xE0 + n / 0x1000 = n / 4096 % 16 + 224 by omega]
  rw [if_neg three, if_neg (show ¬ n ≤ 65535 by omega), last, second, third,
    show 0xF0 + n / 0x40000 = n / 262144 % 8 + 240 by omega]

theorem length_encodePoint (c : Char) : (encodePoint (CodePoint.ofChar c)).length = width c := by
  have val : (CodePoint.ofChar c).val = c.toNat := rfl
  simp only [encodePoint, width, val]
  split_ifs <;> rfl

theorem isSurrogate_ofChar (c : Char) : (CodePoint.ofChar c).isSurrogate = false := by
  have valid : c.val.toNat.isValidChar := c.valid
  have val : (CodePoint.ofChar c).val = c.val.toNat := rfl
  simp only [Nat.isValidChar] at valid
  simp only [CodePoint.isSurrogate, val, Bool.and_eq_false_iff, decide_eq_false_iff_not]
  omega

/-- The bytes of characters. -/
def encodeChars (cs : List Char) : List UInt8 := cs.flatMap String.utf8EncodeChar

@[simp] theorem encodeChars_append (cs ds : List Char) :
    encodeChars (cs ++ ds) = encodeChars cs ++ encodeChars ds := by
  rw [encodeChars, List.flatMap_append]
  rfl

@[simp] theorem length_encodeChars (cs : List Char) : (encodeChars cs).length = widths cs := by
  induction cs with
  | nil => rfl
  | cons c cs ih =>
    rw [encodeChars, List.flatMap_cons, List.length_append, ← encodePoint_ofChar,
      length_encodePoint, widths_cons]
    rw [encodeChars] at ih
    rw [ih]

theorem decode_encodeChars (cs : List Char) : decode (encodeChars cs) = cs := by
  induction cs with
  | nil => rfl
  | cons c cs ih =>
    rw [decode, encodeChars, List.flatMap_cons, ← encodePoint_ofChar,
      decodeFrom_encodePoint _ (isSurrogate_ofChar c)]
    rw [decode, encodeChars] at ih
    rw [ih]
    exact congrArg (· :: cs) (Char.ofNat_toNat c)

theorem data_toUTF8 (cs : List Char) : (String.ofList cs).toUTF8.data.toList = encodeChars cs := by
  rw [String.toUTF8, String.toByteArray_ofList, List.utf8Encode, List.data_toByteArray,
    encodeChars]

end Utf8

/-! ### Segments -/

namespace Parse

open Utf8 (widths encodeChars)

/-- The characters between two offsets of a text. Where there are none, the offset need not be a
place of the text. -/
inductive Segment (text : List Char) : Nat → Nat → List Char → Prop where
  | none (a : Nat) : Segment text a a []
  | some {front piece rest : List Char} : text = front ++ (piece ++ rest) →
      Segment text (widths front) (widths front + widths piece) piece

namespace Segment

variable {text x y : List Char} {a b c : Nat}

theorem append (h : Segment text a b x) (h' : Segment text b c y) :
    Segment text a c (x ++ y) := by
  cases h with
  | none => exact h'
  | @some front _ rest split =>
    generalize same : widths front + widths x = b' at h'
    cases h' with
    | none =>
      rw [← same, List.append_nil]
      exact .some split
    | @some front' _ rest' split' =>
      rw [← List.append_assoc] at split
      obtain ⟨rfl, -⟩ := Utf8.eq_of_widths (split'.symm.trans split)
        (same.symm.trans (Utf8.widths_append ..).symm)
      have whole : text = front ++ ((x ++ y) ++ rest') := split'.trans (by simp)
      rw [Utf8.widths_append, Nat.add_assoc, ← Utf8.widths_append]
      exact .some whole

/-- What a slice of the bytes of a text spells. -/
theorem slice (h : Segment text a b x) :
    SourceFile.sliceOf (String.ofList text).toUTF8 a b = Text.ofChars x := by
  rw [SourceFile.sliceOf, ByteArray.data_extract, Array.toList_extract, List.extract_eq_take_drop,
    Utf8.data_toUTF8]
  cases h with
  | none => simp [Utf8.decode, Utf8.decodeFrom]
  | @some front _ rest split =>
    rw [split, Utf8.encodeChars_append, ← Utf8.length_encodeChars front, List.drop_left,
      Nat.add_sub_cancel_left, Utf8.encodeChars_append, ← Utf8.length_encodeChars x,
      List.take_left, Utf8.decode_encodeChars]

end Segment

theorem Blank.segment {text : List Char} {a b : Nat} (h : Blank text a b) :
    ∃ c, Segment text a b [c] ∧ isSpace c = true := by
  cases h with
  | @mk front rest c split space =>
    have single : Utf8.width c = widths [c] := by simp
    exact ⟨c, single ▸ .some (split.trans rfl), space⟩

theorem Comment.segment {text : List Char} {a b : Nat} (h : Comment text a b) :
    ∃ piece rest, Segment text a b piece ∧ IsComment piece rest := by
  cases h with
  | @mk front piece rest split comment => exact ⟨piece, rest, .some split, comment⟩

/-- A gap of white space is a segment of it. -/
theorem exists_segment_of_blanks {text : List Char} {a b : Nat} (h : (blanks text).Free a b) :
    ∃ piece, Segment text a b piece ∧ ∀ c ∈ piece, isSpace c = true := by
  induction h with
  | refl => exact ⟨[], .none a, by simp⟩
  | tail _ step ih =>
    obtain ⟨piece, front, spaces⟩ := ih
    obtain ⟨c, last, space⟩ := step.segment
    refine ⟨piece ++ [c], front.append last, ?_⟩
    intro d mem
    rcases List.mem_append.mp mem with mem | mem
    · exact spaces d mem
    · rw [List.mem_singleton.mp mem]
      exact space

end Parse

end ParamSchema
