import ParamSchema.Double.Basic

/-!
Doubles and decimals: the double nearest to a decimal, and the shortest decimal that is nearest
to a double.
-/

namespace ParamSchema.Double

/-- The number of decimal digits of a natural number, one for zero. -/
def digitCount (n : Nat) : Nat := (Nat.toDigits 10 n).length

/-- The double nearest to `± digits * 10 ^ exponent`. Decimals with more than 309 digits before the
point are beyond every double, and those below `10 ^ -324` are nearest to zero. -/
def ofDecimal (negative : Bool) (digits : Nat) (exponent : Int) : Double :=
  if digits = 0 then zero negative
  else
    let top := (digitCount digits : Int) + exponent
    if 310 ≤ top then .infinity negative
    else if top ≤ -324 then zero negative
    else if 0 ≤ exponent then ofRatio negative (digits * Nat.pow 10 exponent.toNat) 1
    else ofRatio negative digits (Nat.pow 10 (-exponent).toNat)

/-- A decimal `digits * 10 ^ exponent`. -/
structure Decimal where
  digits : Nat
  exponent : Int
  deriving DecidableEq, Repr

/-- The decimal that equals `mantissa * 2 ^ exponent`. -/
def exactDecimal (mantissa : Nat) (exponent : Int) : Decimal :=
  if 0 ≤ exponent then ⟨mantissa * Nat.pow 2 exponent.toNat, 0⟩
  else ⟨mantissa * Nat.pow 5 (-exponent).toNat, exponent⟩

/-- The fraction `mantissa * 2 ^ exponent / 10 ^ place`. -/
def inPlaces (mantissa : Nat) (exponent place : Int) : Nat × Nat :=
  let (n, d) := scale mantissa 1 (-exponent)
  if 0 ≤ place then (n, d * Nat.pow 10 place.toNat) else (n * Nat.pow 10 (-place).toNat, d)

/-- The number of digits before the point, negative when zeros follow the point. -/
def pointPlace (mantissa : Nat) (exponent : Int) : Int :=
  let (n, d) := inPlaces mantissa exponent (-400)
  (digitCount (n / d) : Int) - 400

/-- Of the two decimals with their last digit at `place` next to a double, the nearest of those that
read back as the double. -/
def endingAt? (mantissa : Nat) (exponent place : Int) : Option Decimal :=
  let (n, d) := inPlaces mantissa exponent place
  let low := n / d
  let self := ofScaled false mantissa exponent
  let reads (digits : Nat) : Bool := ofDecimal false digits place == self
  let best := roundDiv n d
  if reads best then some ⟨best, place⟩
  else if reads low then some ⟨low, place⟩
  else if reads (low + 1) then some ⟨low + 1, place⟩
  else none

/-- The nearest decimal with `count` digits that reads back as a double. -/
def withDigits? (mantissa : Nat) (exponent : Int) (count : Nat) : Option Decimal :=
  endingAt? mantissa exponent (pointPlace mantissa exponent - count)

/-- The shortest decimal that reads back as `mantissa * 2 ^ exponent`, and of those the nearest.
Seventeen digits are enough; the exact decimal is kept as the last resort. -/
def shortestDecimal (mantissa : Nat) (exponent : Int) : Decimal :=
  ((List.range 17).findSome? fun i => withDigits? mantissa exponent (i + 1)).getD
    (exactDecimal mantissa exponent)

end ParamSchema.Double
