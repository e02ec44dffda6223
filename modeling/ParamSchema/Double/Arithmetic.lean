import ParamSchema.Double.Basic

/-!
Arithmetic on doubles: the exact result of the operation, rounded once.
-/

namespace ParamSchema.Double

def neg : Double → Double
  | .nan => .nan
  | .infinity s => .infinity (!s)
  | .finite s m e h => .finite (!s) m e h

instance : Neg Double := ⟨neg⟩

/-- The integer `± n`. -/
def signed (negative : Bool) (n : Nat) : Int := if negative then -(n : Int) else n

/-- The mantissa in units of `2 ^ unit`, for a unit that is no finer than needed. -/
def inUnits (mantissa : Nat) (exponent unit : Int) : Nat :=
  mantissa * Nat.pow 2 (exponent - unit).toNat

def add : Double → Double → Double
  | .finite s m e _, .finite s' m' e' _ =>
    let unit := min e e'
    let total := signed s (inUnits m e unit) + signed s' (inUnits m' e' unit)
    if total = 0 then zero (s && s') else ofScaled (total < 0) total.natAbs unit
  | .infinity s, .infinity s' => if s == s' then .infinity s else .nan
  | .infinity s, .finite .. => .infinity s
  | .finite .., .infinity s => .infinity s
  | .nan, _ => .nan
  | _, .nan => .nan

instance : Add Double := ⟨add⟩

def sub (x y : Double) : Double := x + -y

instance : Sub Double := ⟨sub⟩

def mul : Double → Double → Double
  | .finite s m e _, .finite s' m' e' _ => ofScaled (s ^^ s') (m * m') (e + e')
  | .infinity s, .infinity s' => .infinity (s ^^ s')
  | .infinity s, .finite s' m' _ _ => if m' = 0 then .nan else .infinity (s ^^ s')
  | .finite s m _ _, .infinity s' => if m = 0 then .nan else .infinity (s ^^ s')
  | .nan, _ => .nan
  | _, .nan => .nan

instance : Mul Double := ⟨mul⟩

def div : Double → Double → Double
  | .finite s m e _, .finite s' m' e' _ =>
    if m' = 0 then if m = 0 then .nan else .infinity (s ^^ s')
    else
      let (n, d) := scale m m' (e' - e)
      ofRatio (s ^^ s') n d
  | .infinity _, .infinity _ => .nan
  | .infinity s, .finite s' .. => .infinity (s ^^ s')
  | .finite s .., .infinity s' => zero (s ^^ s')
  | .nan, _ => .nan
  | _, .nan => .nan

instance : Div Double := ⟨div⟩

/-- The remainder of a division toward zero; it has the sign of the dividend. -/
def rem : Double → Double → Double
  | .finite s m e h, .finite _ m' e' _ =>
    if m' = 0 then .nan
    else
      let unit := min e e'
      let r := inUnits m e unit % inUnits m' e' unit
      if m = 0 then .finite s m e h else ofScaled s r unit
  | .finite s m e h, .infinity _ => .finite s m e h
  | _, _ => .nan

instance : Mod Double := ⟨rem⟩

end ParamSchema.Double
