import ParamSchema.Numeral

/-!
Escape sequences of string literals. A sequence of the form `\u` or `\x` whose digits denote no
code point is kept as it is written; a number beyond 32 bits overflows.
-/

namespace ParamSchema.Escape

/-- The control characters with an escape of one letter. -/
def simple : List (CodePoint × CodePoint) :=
  [(chr 'n', chr '\n'), (chr 't', chr '\t'), (chr 'r', chr '\r'), (chr 'b', ⟨0x08, by decide⟩),
   (chr 'f', ⟨0x0C, by decide⟩), (chr 'v', ⟨0x0B, by decide⟩), (chr '0', ⟨0, by decide⟩)]

/-- The code point with a hexadecimal number, or the sequence itself. -/
def numbered (sequence digits : Text) : Except Overflow Text :=
  match Numeral.integer? 16 digits with
  | none => .ok sequence
  | some n =>
    if n < -0x80000000 || 0x7FFFFFFF < n then .error .escape
    else if n < 0 then .ok sequence
    else match CodePoint.ofNat? n.toNat with
      | some c => .ok [c]
      | none => .ok sequence

def isBrace (c : CodePoint) : Bool := c == chr '\x7b' || c == chr '\x7d'

/-- The text without braces around it. -/
def withoutBraces (t : Text) : Text := Text.dropEndWhile isBrace (t.dropWhile isBrace)

/-- What an escape sequence, written with its backslash, stands for. -/
def decode (sequence : Text) : Except Overflow Text :=
  match sequence.drop 1 with
  | [] => .ok []
  | c :: rest =>
    match (if rest.isEmpty then simple.lookup c else none) with
    | some control => .ok [control]
    | none =>
      if c == chr 'u' then numbered sequence (withoutBraces rest)
      else if c == chr 'x' then numbered sequence rest
      else if c == chr '\r' || c == chr '\n' then .ok []
      else .ok (c :: rest)

end ParamSchema.Escape
