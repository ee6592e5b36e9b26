/-
RangedIR.Number.Format — binary floating-point formats over the integers.

A pattern of a binary format is a natural number. `Format.decode` reads a
pattern as `± m · 2^e`, an infinity or no number at all, and
`Format.encode` rounds such a datum back, to nearest with ties to even.
Everything here is exact integer arithmetic, so rules about numbers (integer
part, remainder, narrowing) can be stated without touching an operation of
the machine.
-/

namespace RangedIR.Number

-- powers of the core library
attribute [local instance (high)] instPowNat

/-! ## 1. Formats and data -/

/-- A binary interchange format, given by the width of its two fields. -/
structure Format where
  fractionBits : Nat
  exponentBits : Nat
  deriving DecidableEq, Repr

/-- The 64-bit format. -/
def Format.double : Format := ⟨52, 11⟩

/-- The 32-bit format. -/
def Format.single : Format := ⟨23, 8⟩

/-- What a pattern denotes. A zero keeps its sign. -/
inductive Datum where
  /-- `± significand · 2^exponent` -/
  | finite (negative : Bool) (significand : Nat) (exponent : Int)
  | infinite (negative : Bool)
  | nan
  deriving DecidableEq, Repr

namespace Format

/-- Exponent of the last place of the smallest numbers of the format. -/
def tiny (f : Format) : Int := 2 - 2 ^ (f.exponentBits - 1) - f.fractionBits

/-- The sign bit as a number. -/
def signUnit (f : Format) : Nat := 2 ^ (f.fractionBits + f.exponentBits)

/-- Pattern of the positive infinity. -/
def infinity (f : Format) : Nat := (2 ^ f.exponentBits - 1) * 2 ^ f.fractionBits

/-- The pattern written for a datum that is no number. -/
def quietNaN (f : Format) : Nat := f.infinity + 2 ^ (f.fractionBits - 1)

/-! ## 2. Reading a pattern -/

/-- The datum a pattern denotes. -/
def decode (f : Format) (pattern : Nat) : Datum :=
  let negative := pattern / f.signUnit % 2 == 1
  let field := pattern / 2 ^ f.fractionBits % 2 ^ f.exponentBits
  let fraction := pattern % 2 ^ f.fractionBits
  if field = 2 ^ f.exponentBits - 1 then
    if fraction = 0 then .infinite negative else .nan
  else if field = 0 then .finite negative fraction f.tiny
  else .finite negative (2 ^ f.fractionBits + fraction) (f.tiny + field - 1)

end Format

/-! ## 3. Rounding to a pattern -/

/-- The quotient rounded to the nearest integer, a half to the even one. -/
def roundDiv (num den : Nat) : Nat :=
  let q := num / den
  let r := 2 * (num % den)
  if r < den || (r == den && q % 2 == 0) then q else q + 1

namespace Format

/-- Pattern of the number of the format nearest to `significand · 2^exponent`,
ties to the even significand; infinity beyond the largest number. The
significand and the exponent field are added, so a significand that rounds up
to the next power of two carries into the field. -/
def round (f : Format) (significand : Nat) (exponent : Int) : Nat :=
  if significand = 0 then 0 else
  let last := max (exponent + significand.log2 - f.fractionBits) f.tiny
  let m :=
    if last ≤ exponent then significand * 2 ^ (exponent - last).toNat
    else roundDiv significand (2 ^ (last - exponent).toNat)
  min ((last - f.tiny).toNat * 2 ^ f.fractionBits + m) f.infinity

/-- Pattern of the number of the format nearest to a datum. -/
def encode (f : Format) : Datum → Nat
  | .finite negative m e => (if negative then f.signUnit else 0) + f.round m e
  | .infinite negative => (if negative then f.signUnit else 0) + f.infinity
  | .nan => f.quietNaN

end Format

end RangedIR.Number
