/-
RangedIR.Interval.Lane — bit patterns of interval ends.

A value written as one scalar kind and read back as another is modelled end by
end: each end is taken to its bit pattern and the bits read are taken back to a
number. That is exact for a single number.
-/
import RangedIR.Code.Type
import RangedIR.Interval.Basic

namespace RangedIR

open Number

-- powers of the core library
attribute [local instance (high)] instPowNat

/-! ## 1. Scalar kinds -/

/-- The kinds of scalars whose bits can be read back. -/
inductive ScalarKind where
  | i8 | i16 | i32 | i64 | f32 | f64
  deriving DecidableEq, Repr

namespace ScalarKind

def bits : ScalarKind → Nat
  | i8 => 8
  | i16 => 16
  | i32 | f32 => 32
  | i64 | f64 => 64

def isFloat : ScalarKind → Bool
  | f32 | f64 => true
  | _ => false

/-- The word of the type. -/
def name : ScalarKind → String
  | i8 => "i8" | i16 => "i16" | i32 => "i32" | i64 => "i64" | f32 => "float" | f64 => "double"

/-- The kind of a type, if its bits can be read back. -/
def ofType? : Ty → Option ScalarKind
  | .int 8 => some i8
  | .int 16 => some i16
  | .int 32 => some i32
  | .int 64 => some i64
  | .float => some f32
  | .double => some f64
  | _ => none

/-- The pattern of a number stored as a kind. -/
def encode (k : ScalarKind) (v : Float) : Nat :=
  match k with
  | f32 => singlePattern v
  | f64 => v.toBits.toNat
  | k => (toSigned64 v % 2 ^ k.bits).toNat

/-- The number that the low bits of a pattern denote. -/
def decode (k : ScalarKind) (pattern : Nat) : Float :=
  match k with
  | f32 => ofSinglePattern (pattern % 2 ^ (32 : Nat))
  | f64 => ofPattern (pattern % 2 ^ (64 : Nat))
  | k => ofInt ((pattern : Int).bmod (2 ^ k.bits))

end ScalarKind

/-! ## 2. Lanes -/

namespace Interval

/-- The lane of kind `dst` that starts at bit `offset` of a value stored as
`src`, low bits first: none when it reaches past the value or reads something
that is no finite number. Where it ends is counted with thirty-two bits, and by
how far the value is shifted with six. -/
def lane (a : Bound) (src : ScalarKind) (offset : Nat) (dst : ScalarKind) : Option Bound :=
  if src.bits < wrap 32 (offset + dst.bits) then none else
  let read (v : Float) : Float := dst.decode (src.encode v >>> wrap 6 offset)
  let lo := read a.lo
  let hi := read a.hi
  if lo.isFinite && hi.isFinite then some (span lo hi) else none

/-- A value stored as `src` and read as `dst`. -/
def reinterpret (a : Bound) (src dst : ScalarKind) : Option Bound :=
  if src = dst then some a else a.lane src 0 dst

end Interval

end RangedIR
