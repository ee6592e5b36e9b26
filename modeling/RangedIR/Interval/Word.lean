/-
RangedIR.Interval.Word — intervals of machine words.

Ranges of the integer types, shifts, and the bitwise connectives. The
connectives are answered for non-negative operands only, where the value of a
word and its bit pattern agree.
-/
import RangedIR.Interval.Basic
import RangedIR.Number.Elementary

namespace RangedIR

open Number

-- powers of the core library
attribute [local instance (high)] instPowNat

/-! ## 1. Ranges of the integer types -/

/-- The greatest unsigned integer of a width. -/
def unsignedMax (bits : Nat) : Float := twoPow bits - 1.0

/-- The least signed integer of a width. -/
def signedMin (bits : Nat) : Float := -twoPow ((bits : Int) - 1)

/-- The greatest signed integer of a width. -/
def signedMax (bits : Nat) : Float := twoPow ((bits : Int) - 1) - 1.0

/-- The signed integer with the same low `bits` bits as the integer part of `v`.
The integer part is first taken into 64 bits. -/
def wrapSigned (v : Float) (bits : Nat) : Float :=
  let n := toSigned64 v
  ofInt (if 64 ≤ bits then n else n.bmod (2 ^ bits))

namespace Interval

/-! ## 2. Shifts -/

/-- Whether shifting `a` by `b` is modelled in a width: nothing is negative and
the amount stays below the width. -/
def shiftable (a b : Bound) (bits : Nat) : Bool :=
  a.isNonneg && b.isNonneg && !(ofInt bits ≤ b.hi)

/-- Left shift of an unsigned word; none when a result may not fit. -/
def shl (a b : Bound) (bits : Nat) : Option Bound :=
  if !shiftable a b bits then none else
  let lo := a.lo * Elementary.exp2 (floor b.lo)
  let hi := a.hi * Elementary.exp2 (floor b.hi)
  if unsignedMax bits < hi then none else of? lo hi

/-- Right shift; for non-negative words the two kinds agree. -/
def shr (a b : Bound) (bits : Nat) : Option Bound :=
  if !shiftable a b bits then none else
  of? (floor (a.lo / Elementary.exp2 (floor b.hi))) (floor (a.hi / Elementary.exp2 (floor b.lo)))

/-! ## 3. Bitwise connectives -/

/-- The least number of the form `2^k - 1` at or above the integer part of `v`,
within 64 bits. -/
def envelope (v : Float) : Float :=
  let n := toUnsigned64 v
  if n = 0 then 0.0 else ofInt (2 ^ (n.log2 + 1) - 1)

/-- A connective on words: exact on two single words, otherwise from `wide`. -/
def bitwise (f : Nat → Nat → Nat) (wide : Bound → Bound → Option Bound) (a b : Bound) :
    Option Bound :=
  if !(a.isNonneg && b.isNonneg) then none
  else if a.isSingleton && b.isSingleton then
    some (singleton (ofInt (f (toUnsigned64 a.lo) (toUnsigned64 b.lo))))
  else wide a b

/-- Conjunction: at most the lesser operand. -/
def and (a b : Bound) : Option Bound :=
  bitwise (· &&& ·) (fun a b => of? 0.0 (Endpoint.lesser a.hi b.hi)) a b

/-- Disjunction: at least the greater operand, and no bit above the highest one. -/
def or (a b : Bound) : Option Bound :=
  bitwise (· ||| ·)
    (fun a b => of? (Endpoint.greater a.lo b.lo) (envelope (Endpoint.greater a.hi b.hi))) a b

/-- Exclusive disjunction: no bit above the highest one. -/
def xor (a b : Bound) : Option Bound :=
  bitwise (· ^^^ ·) (fun a b => of? 0.0 (envelope (Endpoint.greater a.hi b.hi))) a b

end Interval

end RangedIR
