import ParamSchema.Double.Decimal
import ParamSchema.Text.Blank

/-!
The printed form of a double: integers below `10 ^ 21` with all their digits, other numbers with
the fewest digits that read back, in positional form from `10 ^ -6` on and below `10 ^ 21` and
with an exponent outside.
-/

namespace ParamSchema.Double

/-- The range of places of the point in which numbers are written without an exponent. -/
structure Layout where
  lowest : Int
  highest : Int

/-- Numbers from `10 ^ -6` on and below `10 ^ 21` have no exponent. -/
def layout : Layout := ⟨-5, 21⟩

/-- Integers have all their digits below `10 ^ 21`. -/
def integerBound : Nat := 1000000000000000000000

/-- Writes digits with the point behind the first `point` of them. -/
def positional (digits : Text) (point : Int) : Text :=
  if point ≤ 0 then txt "0." ++ List.replicate (-point).toNat (chr '0') ++ digits
  else if point.toNat < digits.length then
    digits.take point.toNat ++ txt "." ++ digits.drop point.toNat
  else digits ++ List.replicate (point.toNat - digits.length) (chr '0')

/-- Writes digits with the point behind the first of them and a power of ten. -/
def scientific (digits : Text) (power : Int) : Text :=
  let fraction := digits.drop 1
  digits.take 1 ++ (if fraction.isEmpty then [] else txt "." ++ fraction) ++ txt "e" ++
    (if power < 0 then txt "-" else txt "+") ++ Text.ofNat power.natAbs

/-- Writes a decimal without zeros at its end. -/
def writeDecimal (d : Decimal) : Text :=
  let all := Text.ofNat d.digits
  let digits := Text.dropEndWhile (· == chr '0') all
  let point := (all.length : Int) + d.exponent
  if layout.lowest ≤ point && point ≤ layout.highest then positional digits point
  else scientific digits (point - 1)

/-- The integer `mantissa * 2 ^ exponent`, when it is one. -/
def integer? (mantissa : Nat) (exponent : Int) : Option Nat :=
  if 0 ≤ exponent then some (mantissa * Nat.pow 2 exponent.toNat)
  else if mantissa % Nat.pow 2 (-exponent).toNat = 0 then
    some (mantissa / Nat.pow 2 (-exponent).toNat)
  else none

/-- The printed form of a positive number. -/
def writePositive (mantissa : Nat) (exponent : Int) : Text :=
  match integer? mantissa exponent with
  | some n =>
    if n < integerBound then Text.ofNat n else writeDecimal (shortestDecimal mantissa exponent)
  | none => writeDecimal (shortestDecimal mantissa exponent)

/-- The printed form of a double; both zeros are written `0`. -/
def text : Double → Text
  | .nan => txt "NaN"
  | .infinity negative => if negative then txt "-Infinity" else txt "Infinity"
  | .finite negative m e _ =>
    if m = 0 then txt "0" else (if negative then txt "-" else []) ++ writePositive m e

end ParamSchema.Double
