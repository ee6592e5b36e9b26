/-
RangedIR.Number.Elementary — exponential and logarithm, correctly rounded.

Values are computed in fixed point with `precision` fractional bits, about two
hundred more than a binary64 significand holds, and rounded once. Arguments so
small that the answer is fixed by the first term of the series are answered
from it.
-/
import RangedIR.Number.Double

namespace RangedIR.Number.Elementary

-- powers of the core library
attribute [local instance (high)] instPowNat

/-! ## 1. Series in fixed point -/

/-- Fractional bits of a fixed-point value. -/
def precision : Nat := 320

/-- The fixed-point one. -/
def unit : Nat := 2 ^ precision

/-- `Σ term · x^i · n! / (n + i)!` for `i = 0, 1, …`, with `x` and `term` in
fixed point; with `term = unit` and `n = 0` the exponential of `x`. -/
def expSeries (x : Nat) : Nat → Nat → Nat → Nat
  | 0, _, _ => 0
  | fuel + 1, n, term => term + expSeries x fuel (n + 1) (term * x / unit / (n + 1))

/-- The exponential of a fixed-point value below one. -/
def expUnit (x : Nat) : Nat := expSeries x 128 0 unit

/-- `Σ power · z^(2i) / (2i + n)` for `i = 0, 1, …`, in fixed point. -/
def atanhSeries (square : Nat) : Nat → Nat → Nat → Nat
  | 0, _, _ => 0
  | fuel + 1, n, power => power / n + atanhSeries square fuel (n + 2) (power * square / unit)

/-- `ln ((1 + z) / (1 - z))` for a fixed-point `z` of at most a third. -/
def logOfRatio (z : Nat) : Nat := 2 * atanhSeries (z * z / unit) 128 1 z

/-- `ln 2`, from the ratio `(1 + 1/3) / (1 - 1/3)`. -/
def logTwo : Nat := logOfRatio (unit / 3)

/-- `ln (n · 2^e)` for a positive `n`, in signed fixed point: the logarithm of
the part in `[1, 2)` and a multiple of `ln 2`. -/
def logFixed (n : Nat) (e : Int) : Int :=
  let k := n.log2
  let one := 2 ^ k
  (logOfRatio ((n - one) * unit / (n + one)) : Int) + (e + k) * logTwo

/-- A signed fixed-point value as a number. -/
def ofFixed (x : Int) : Float := ofDatum (.finite (x < 0) x.natAbs (-precision))

/-- `± m · 2^e` in signed fixed point, rounded down in magnitude. -/
def toFixed (negative : Bool) (m : Nat) (e : Int) : Int :=
  let x := (m * 2 ^ (e + precision).toNat) / 2 ^ (-(e + precision)).toNat
  if negative then -(x : Int) else x

/-- `2^k` times the exponential of a fixed-point value below one. -/
def scaledExp (x : Nat) (k : Int) : Float := ofDatum (.finite false (expUnit x) (k - precision))

/-- Whether `m · 2^e` is below `2^-54`, so that one plus it rounds to one. -/
def negligible (m : Nat) (e : Int) : Bool := m == 0 || (m.log2 : Int) + e < -55

/-! ## 2. Functions -/

/-- The exponential. -/
def exp (x : Float) : Float :=
  match datum x with
  | .nan => x
  | .infinite negative => if negative then 0.0 else x
  | .finite negative m e =>
    if negligible m e then 1.0
    else if 750.0 < x then infinity
    else if x < -750.0 then 0.0
    else
      let v := toFixed negative m e
      let k := v / logTwo
      scaledExp (v - k * logTwo).toNat k

/-- The power `2^x`. -/
def exp2 (x : Float) : Float :=
  match datum x with
  | .nan => x
  | .infinite negative => if negative then 0.0 else x
  | .finite negative m e =>
    if negligible m e then 1.0
    else if 1100.0 < x then infinity
    else if x < -1100.0 then 0.0
    else
      let v := toFixed negative m e
      let k := v / unit
      scaledExp ((v - k * unit).toNat * logTwo / unit) k

/-- The natural logarithm. -/
def log (x : Float) : Float :=
  match datum x with
  | .nan => x
  | .infinite negative => if negative then ofDatum .nan else x
  | .finite negative m e =>
    if m = 0 then -infinity
    else if negative then ofDatum .nan
    else ofFixed (logFixed m e)

/-- The natural logarithm of `1 + x`. -/
def log1p (x : Float) : Float :=
  match datum x with
  | .nan => x
  | .infinite negative => if negative then ofDatum .nan else x
  | .finite negative m e =>
    if negligible m e then x
    else
      let last := min e 0
      let one : Int := 2 ^ (-last).toNat
      let part : Int := m * 2 ^ (e - last).toNat
      let sum := if negative then one - part else one + part
      if sum = 0 then -infinity
      else if sum < 0 then ofDatum .nan
      else ofFixed (logFixed sum.toNat last)

end RangedIR.Number.Elementary
