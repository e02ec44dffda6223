/-!
Double precision numbers as exact values. A finite double is a mantissa times a power of two, in
the one canonical way, so that equal numbers are equal terms; every operation computes exactly
and rounds once, to the nearest double and on a tie to the even mantissa.
-/

namespace ParamSchema

/-- The least mantissa with all its 53 bits, `2 ^ 52`. -/
def Double.fullMantissa : Nat := 0x10000000000000

/-- The weight of the sign in the interchange format, `2 ^ 63`. -/
def Double.signBit : Nat := 0x8000000000000000

/-- The mantissas and exponents of finite doubles: 53 significant bits, or fewer at the least
exponent. -/
def Double.Canonical (mantissa : Nat) (exponent : Int) : Prop :=
  mantissa < 2 * Double.fullMantissa ∧ -1074 ≤ exponent ∧ exponent ≤ 971 ∧
    (Double.fullMantissa ≤ mantissa ∨ exponent = -1074)

instance (mantissa : Nat) (exponent : Int) : Decidable (Double.Canonical mantissa exponent) :=
  inferInstanceAs (Decidable (_ ∧ _))

/-- A double precision number; a finite one is `± mantissa * 2 ^ exponent`. -/
inductive Double where
  | nan
  | infinity (negative : Bool)
  | finite (negative : Bool) (mantissa : Nat) (exponent : Int)
      (canonical : Double.Canonical mantissa exponent)
  deriving DecidableEq, Repr

namespace Double

def zero (negative : Bool) : Double := .finite negative 0 (-1074) (by decide)

def isFinite : Double → Bool
  | .finite .. => true
  | _ => false

def isZero : Double → Bool
  | .finite _ m _ _ => m == 0
  | _ => false

/-- The integer nearest to `num / den`; a half goes to the even neighbour. -/
def roundDiv (num den : Nat) : Nat :=
  let q := num / den
  let r := num % den
  if 2 * r < den then q else if den < 2 * r then q + 1 else q + q % 2

/-- The fraction `num / den / 2 ^ exponent`. -/
def scale (num den : Nat) (exponent : Int) : Nat × Nat :=
  if 0 ≤ exponent then (num, den * Nat.pow 2 exponent.toNat)
  else (num * Nat.pow 2 (-exponent).toNat, den)

/-- The largest `k` with `2 ^ k ≤ num / den`. -/
def floorLog (num den : Nat) : Int :=
  let k : Int := (num.log2 : Int) - den.log2
  let (n, d) := scale num den k
  if d ≤ n then k else k - 1

/-- The double nearest to `± num / den`, infinite when that is beyond all of them. -/
def ofRatio (negative : Bool) (num den : Nat) : Double :=
  if num = 0 then zero negative
  else
    let exponent := max (-1074) (floorLog num den - 52)
    let (n, d) := scale num den exponent
    let mantissa := roundDiv n d
    let (mantissa, exponent) :=
      if mantissa = 2 * fullMantissa then (fullMantissa, exponent + 1) else (mantissa, exponent)
    if h : Canonical mantissa exponent then .finite negative mantissa exponent h
    else .infinity negative

def ofNat (n : Nat) : Double := ofRatio false n 1

/-- The double nearest to `± n * 2 ^ exponent`. -/
def ofScaled (negative : Bool) (n : Nat) (exponent : Int) : Double :=
  if 0 ≤ exponent then ofRatio negative (n * Nat.pow 2 exponent.toNat) 1
  else ofRatio negative n (Nat.pow 2 (-exponent).toNat)

/-- The bits of the interchange format. -/
def toBits : Double → Nat
  | .nan => 0x7FF8000000000000
  | .infinity negative => (if negative then signBit else 0) + 0x7FF0000000000000
  | .finite negative m e _ =>
    (if negative then signBit else 0) +
      if fullMantissa ≤ m then (e + 1075).toNat * fullMantissa + (m - fullMantissa) else m

/-- The double of 64 bits of the interchange format. -/
def ofBits (bits : Nat) : Double :=
  let negative := bits / signBit % 2 == 1
  let field : Nat := bits / fullMantissa % 2048
  let fraction : Nat := bits % fullMantissa
  if field = 2047 then if fraction = 0 then .infinity negative else .nan
  else if field = 0 then ofScaled negative fraction (-1074)
  else ofScaled negative (fullMantissa + fraction) ((field : Int) - 1075)

end Double

end ParamSchema
