import Mathlib.Data.List.Basic
import ParamSchema.Payload.Base64
import ParamSchema.Text.Utf8

/-!
Reading bytes back. A text without surrogates is the text that its bytes in UTF-8 spell
(`Utf8.decode?_encode`), and bytes are the bytes that their digits in base64 stand for
(`Base64.decode?_encode`), whatever their number.
-/

namespace ParamSchema

/-! ### UTF-8 -/

namespace Utf8

/-- The text that bytes spell, if they are the bytes of a text. -/
def decode? (bytes : List UInt8) : Option Text :=
  let t := Text.ofChars (decode bytes)
  if encode t = bytes then some t else none

section

variable {low high : UInt8} {n : Nat} (fits : n < 0x40) (above : low.toNat ≤ 0x80 + n)
  (below : 0x80 + n ≤ high.toNat)

include fits above below

/-- A byte that the character begun before it can use. -/
theorem step_bytes (count bits : Nat) :
    step (.bytes count low high bits) (0x80 + n).toUInt8 =
      if count ≤ 1 then ([Char.ofNat (bits * 0x40 + n)], .nothing)
      else ([], .bytes (count - 1) 0x80 0xBF (bits * 0x40 + n)) := by
  have value : ((0x80 + n).toUInt8).toNat = 0x80 + n := by
    rw [Nat.toUInt8, UInt8.toNat_ofNat']
    omega
  have within : (low ≤ (0x80 + n).toUInt8 && (0x80 + n).toUInt8 ≤ high) = true := by
    simp only [Bool.and_eq_true, decide_eq_true_eq, UInt8.le_iff_toNat_le, value]
    exact ⟨above, below⟩
  have low6 : (0x80 + n) % 0x40 = n := by omega
  rw [step, if_pos within, value, low6]

theorem decodeFrom_more (count bits : Nat) (rest : List UInt8) :
    decodeFrom (.bytes (count + 2) low high bits) ((0x80 + n).toUInt8 :: rest) =
      decodeFrom (.bytes (count + 1) 0x80 0xBF (bits * 0x40 + n)) rest := by
  rw [decodeFrom, step_bytes fits above below, if_neg (by omega)]
  rfl

theorem decodeFrom_last (bits : Nat) (rest : List UInt8) :
    decodeFrom (.bytes 1 low high bits) ((0x80 + n).toUInt8 :: rest) =
      Char.ofNat (bits * 0x40 + n) :: decodeFrom .nothing rest := by
  rw [decodeFrom, step_bytes fits above below, if_pos (by omega)]
  rfl

end

/-! What the first bytes of characters owe. Some of them narrow the byte behind them, so that no
character has two spellings and no surrogate has one. -/

theorem start_one (m : Fin 0x80) : start m.val.toUInt8 = ([Char.ofNat m], .nothing) := by
  revert m
  decide

theorem start_two (m : Fin 0x20) (long : 2 ≤ m.val) :
    start (0xC0 + m.val).toUInt8 = ([], .bytes 1 0x80 0xBF m) := by
  revert m
  decide

theorem start_three (m : Fin 0x10) :
    start (0xE0 + m.val).toUInt8 =
      ([], .bytes 2 (if m.val = 0 then 0xA0 else 0x80) (if m.val = 0xD then 0x9F else 0xBF) m) := by
  revert m
  decide

theorem start_four (m : Fin 5) :
    start (0xF0 + m.val).toUInt8 =
      ([], .bytes 3 (if m.val = 0 then 0x90 else 0x80) (if m.val = 4 then 0x8F else 0xBF) m) := by
  revert m
  decide

theorem decodeFrom_start {b : UInt8} {chars : List Char} {owed : Owed}
    (h : start b = (chars, owed)) (rest : List UInt8) :
    decodeFrom .nothing (b :: rest) = chars ++ decodeFrom owed rest := by
  rw [decodeFrom, step, h]

/-- The bytes of a code point are read as its character. -/
theorem decodeFrom_encodePoint (c : CodePoint) (proper : c.isSurrogate = false)
    (rest : List UInt8) :
    decodeFrom .nothing (encodePoint c ++ rest) = Char.ofNat c.val :: decodeFrom .nothing rest := by
  obtain ⟨n, bound⟩ := c
  have apart : n < 0xD800 ∨ 0xDFFF < n := by
    simp only [CodePoint.isSurrogate, Bool.and_eq_false_iff, decide_eq_false_iff_not] at proper
    omega
  have most : (0xBF : UInt8).toNat = 0xBF := rfl
  simp only [encodePoint]
  split
  · next one => exact decodeFrom_start (start_one ⟨n, one⟩) rest
  split
  · next many two =>
    rw [List.cons_append, decodeFrom_start (start_two ⟨n / 0x40, by omega⟩ (by simp only; omega)),
      List.nil_append, List.cons_append,
      decodeFrom_last (by omega) (Nat.le_add_right ..) (by omega)]
    congr 2
    simp only
    omega
  split
  · next many _ three =>
    -- The second byte tells the long spellings and the surrogates from the others.
    rw [List.cons_append, decodeFrom_start (start_three ⟨n / 0x1000, by omega⟩), List.nil_append,
      List.cons_append, decodeFrom_more (by omega) (by split <;> grind) (by split <;> grind),
      List.cons_append, decodeFrom_last (by omega) (Nat.le_add_right ..) (by omega)]
    congr 2
    simp only
    omega
  · next many _ _ =>
    rw [List.cons_append, decodeFrom_start (start_four ⟨n / 0x40000, by omega⟩), List.nil_append,
      List.cons_append, decodeFrom_more (by omega) (by split <;> grind) (by split <;> grind),
      List.cons_append, decodeFrom_more (by omega) (Nat.le_add_right ..) (by omega),
      List.cons_append, decodeFrom_last (by omega) (Nat.le_add_right ..) (by omega)]
    congr 2
    simp only
    omega

theorem ofChar_ofNat (c : CodePoint) (proper : c.isSurrogate = false) :
    CodePoint.ofChar (Char.ofNat c.val) = c := by
  obtain ⟨n, bound⟩ := c
  have valid : n.isValidChar := by
    simp only [CodePoint.isSurrogate, Bool.and_eq_false_iff, decide_eq_false_iff_not] at proper
    simp only [Nat.isValidChar]
    omega
  simp only [CodePoint.ofChar, CodePoint.mk.injEq]
  rw [Char.ofNat, dif_pos valid]
  rfl

/-- A text without surrogates is the text that its bytes spell. -/
theorem decode?_encode {t : Text} (proper : t.hasSurrogate = false) :
    decode? (encode t) = some t := by
  have same : Text.ofChars (decode (encode t)) = t := by
    induction t with
    | nil => rfl
    | cons c t ih =>
      rw [Text.hasSurrogate, List.any_cons, Bool.or_eq_false_iff] at proper
      have rest := ih proper.2
      rw [decode, encode, List.flatMap_cons, decodeFrom_encodePoint c proper.1]
      rw [Text.ofChars, List.map_cons, ofChar_ofNat c proper.1]
      rw [decode, encode, Text.ofChars] at rest
      rw [rest]
  rw [decode?, same, if_pos rfl]

end Utf8

/-! ### Base64 -/

namespace Base64

/-- The value of a digit. -/
def value? (c : Char) : Option Nat := alphabet.toList.idxOf? c

/-- The number that four digits stand for. -/
def number? (a b c d : Char) : Option Nat := do
  let a ← value? a
  let b ← value? b
  let c ← value? c
  let d ← value? d
  some (((a * 64 + b) * 64 + c) * 64 + d)

/-- The three bytes of a number. -/
def bytesOf (n : Nat) : List UInt8 := [(n / 65536).toUInt8, (n / 256).toUInt8, n.toUInt8]

/-- The bytes that digits stand for. The marks are at the end only, and the bits that they leave
over are zero. -/
def decode? : List Char → Option (List UInt8)
  | [] => some []
  | a :: b :: c :: d :: rest =>
    if d ≠ '=' then do
      let n ← number? a b c d
      let bytes ← decode? rest
      some (bytesOf n ++ bytes)
    else if rest ≠ [] then none
    else if c ≠ '=' then do
      let n ← number? a b c 'A'
      if n % 256 = 0 then some ((bytesOf n).take 2) else none
    else do
      let n ← number? a b 'A' 'A'
      if n % 65536 = 0 then some ((bytesOf n).take 1) else none
  | _ => none

theorem value?_digit (n : Nat) : value? (digit n) = some (n % 64) := by
  have all : ∀ k : Fin 64, value? (digit k) = some k.val := by decide +kernel
  have := all ⟨n % 64, Nat.mod_lt n (by omega)⟩
  rwa [digit, Nat.mod_mod, ← digit] at this

theorem digit_ne_mark (n : Nat) : digit n ≠ '=' := by
  have all : ∀ k : Fin 64, digit k ≠ '=' := by decide
  have := all ⟨n % 64, Nat.mod_lt n (by omega)⟩
  rwa [digit, Nat.mod_mod, ← digit] at this

/-- Four digits stand for the number whose six-bit parts they are. -/
theorem number?_digits (a b c d : Nat) :
    number? (digit a) (digit b) (digit c) (digit d) =
      some (((a % 64 * 64 + b % 64) * 64 + c % 64) * 64 + d % 64) := by
  simp only [number?, value?_digit, Option.bind_eq_bind, Option.bind_some]

theorem digit_zero : digit 0 = 'A' := rfl

theorem bytesOf_eq (a b c : UInt8) :
    bytesOf ((a.toNat * 256 + b.toNat) * 256 + c.toNat) = [a, b, c] := by
  have ha := a.toNat_lt
  have hb := b.toNat_lt
  have hc := c.toNat_lt
  simp only [bytesOf, List.cons.injEq, and_true, ← UInt8.toNat_inj, Nat.toUInt8, UInt8.toNat_ofNat']
  refine ⟨?_, ?_, ?_⟩ <;> omega

/-- Bytes are the bytes that their digits stand for. -/
theorem decode?_encode (bytes : List UInt8) : decode? (encode bytes) = some bytes := by
  induction bytes using encode.induct with
  | case1 => rfl
  | case2 a =>
    -- The digit `A` stands for six zero bits, so the group is that of `a` and two zero bytes.
    have group : number? (digit (a.toNat * 16 / 64)) (digit (a.toNat * 16)) 'A' 'A' =
        some ((a.toNat * 256 + (0 : UInt8).toNat) * 256 + (0 : UInt8).toNat) := by
      have ha := a.toNat_lt
      rw [← digit_zero, number?_digits, Option.some.injEq, UInt8.toNat_zero]
      omega
    have rest : ((a.toNat * 256 + (0 : UInt8).toNat) * 256 + (0 : UInt8).toNat) % 65536 = 0 := by
      rw [UInt8.toNat_zero]
      omega
    rw [encode, decode?, if_neg (by decide), if_neg (by decide), if_neg (by decide), group,
      Option.bind_eq_bind, Option.bind_some, if_pos rest, bytesOf_eq]
    rfl
  | case3 a b =>
    have group : number? (digit ((a.toNat * 256 + b.toNat) * 4 / 4096))
        (digit ((a.toNat * 256 + b.toNat) * 4 / 64)) (digit ((a.toNat * 256 + b.toNat) * 4)) 'A' =
        some ((a.toNat * 256 + b.toNat) * 256 + (0 : UInt8).toNat) := by
      have ha := a.toNat_lt
      have hb := b.toNat_lt
      rw [← digit_zero, number?_digits, Option.some.injEq, UInt8.toNat_zero]
      omega
    have rest : ((a.toNat * 256 + b.toNat) * 256 + (0 : UInt8).toNat) % 256 = 0 := by
      rw [UInt8.toNat_zero]
      omega
    rw [encode, decode?, if_neg (by decide), if_neg (by decide), if_pos (digit_ne_mark _), group,
      Option.bind_eq_bind, Option.bind_some, if_pos rest, bytesOf_eq]
    rfl
  | case4 a b c tail ih =>
    simp only [encode, decode?, if_pos (digit_ne_mark _)]
    generalize total : (a.toNat * 256 + b.toNat) * 256 + c.toNat = n
    have group : number? (digit (n / 262144)) (digit (n / 4096)) (digit (n / 64)) (digit n) =
        some n := by
      have ha := a.toNat_lt
      have hb := b.toNat_lt
      have hc := c.toNat_lt
      rw [number?_digits, Option.some.injEq]
      omega
    rw [group, ih, ← total, Option.bind_eq_bind, Option.bind_some, bytesOf_eq]
    rfl

end Base64

end ParamSchema
