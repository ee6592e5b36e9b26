/-
RangedIR.Number.Double — operations on binary64 numbers beyond the arithmetic
of the standard library.

Integer part, remainder, narrowing to the 32-bit format and conversions from
and to bounded integers, each computed exactly on the decoded datum and
rounded once.
-/
import RangedIR.Number.Format

namespace RangedIR.Number

-- powers of the core library
attribute [local instance (high)] instPowNat

/-! ## 1. Data of a binary64 number -/

/-- The datum of a binary64 number. -/
def datum (x : Float) : Datum := Format.double.decode x.toBits.toNat

/-- The binary64 number nearest to a datum. -/
def ofDatum (d : Datum) : Float := Float.ofBits (Format.double.encode d).toUInt64

/-- Positive infinity. -/
def infinity : Float := Float.ofBits 0x7ff0000000000000

/-- The number with the given 64-bit pattern. -/
def ofPattern (bits : Nat) : Float := Float.ofBits bits.toUInt64

/-! ## 2. Integer part -/

/-- Drop the fraction. -/
def Datum.truncate : Datum → Datum
  | .finite s m e => if e < 0 then .finite s (m / 2 ^ (-e).toNat) 0 else .finite s m e
  | d => d

/-- The integer neighbour on the side of `down`: below when it is `true`. -/
def Datum.toward (down : Bool) : Datum → Datum
  | .finite s m e =>
    if e < 0 then
      let unit := 2 ^ (-e).toNat
      let away := s == down && m % unit != 0
      .finite s (m / unit + if away then 1 else 0) 0
    else .finite s m e
  | d => d

/-- Whether a datum is an integer. -/
def Datum.isIntegral : Datum → Bool
  | .finite _ m e => !(e < 0) || m % 2 ^ (-e).toNat == 0
  | _ => false

/-- The integer part, toward zero; a zero keeps the sign of `x`. -/
def trunc (x : Float) : Float := ofDatum (datum x).truncate

/-- The greatest integer not above `x`. -/
def floor (x : Float) : Float := ofDatum ((datum x).toward true)

/-- The least integer not below `x`. -/
def ceil (x : Float) : Float := ofDatum ((datum x).toward false)

/-- Whether `x` is an integer; infinities are not. -/
def isIntegral (x : Float) : Bool := (datum x).isIntegral

/-! ## 3. Bounded integers -/

/-- The integer part of `x` moved into `[lo, hi]`; zero for no number. -/
def clampToInt (lo hi : Int) (x : Float) : Int :=
  match (datum x).truncate with
  | .finite s m e =>
    let n : Int := (m : Int) * 2 ^ e.toNat
    max lo (min hi (if s then -n else n))
  | .infinite s => if s then lo else hi
  | .nan => 0

/-- The integer part of `x` as a signed 64-bit integer, saturating. -/
def toSigned64 (x : Float) : Int := clampToInt (-2 ^ (63 : Nat)) (2 ^ (63 : Nat) - 1) x

/-- The integer part of `x` as an unsigned 64-bit integer, saturating. -/
def toUnsigned64 (x : Float) : Nat := (clampToInt 0 (2 ^ (64 : Nat) - 1) x).toNat

/-- The number nearest to an integer. -/
def ofInt (n : Int) : Float := Float.ofInt n

/-- The power `2^n`; infinity past the largest number, zero far below the
smallest. -/
def twoPow (n : Int) : Float :=
  if n < -1074 then 0.0 else ofDatum (.finite false 1 n)

/-! ## 4. Remainder and narrowing -/

/-- Remainder of a truncating division: exact, with the sign of `x`. -/
def rem (x y : Float) : Float :=
  match datum x, datum y with
  | .finite s m e, .finite _ n k =>
    if n = 0 then ofDatum .nan else
    let last := min e k
    ofDatum (.finite s ((m * 2 ^ (e - last).toNat) % (n * 2 ^ (k - last).toNat)) last)
  | .finite _ _ _, .infinite _ => x
  | _, _ => ofDatum .nan

/-- Remainder in `[0, y)` for a positive `y`. -/
def remEuclid (x y : Float) : Float :=
  let r := rem x y
  if r < 0.0 then r + y.abs else r

/-- 32-bit pattern of the single-precision number nearest to `x`. -/
def singlePattern (x : Float) : Nat := Format.single.encode (datum x)

/-- The number with the given 32-bit pattern. -/
def ofSinglePattern (bits : Nat) : Float := ofDatum (Format.single.decode bits)

/-- `x` rounded to single precision. -/
def toSingle (x : Float) : Float := ofSinglePattern (singlePattern x)

end RangedIR.Number
