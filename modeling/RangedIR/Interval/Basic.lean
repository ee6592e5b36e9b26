/-
RangedIR.Interval.Basic — closed intervals and their arithmetic.

An interval is a pair of ends. Its operations ask of the ends only what
`Endpoint` lists, so that the interval arithmetic of the analyser, whose ends
are binary64 numbers, is the same text as interval arithmetic over exact
numbers. Ends are not forced to be ordered: every operation says what it does
with the pair it is given, and one that cannot answer soundly gives none.
-/
import RangedIR.Number.Style

namespace RangedIR

/-! ## 1. Ends -/

/-- What an interval asks of its ends: arithmetic, the order as a test, and the
remainder of a truncating division. -/
class Endpoint (α : Type) extends Add α, Sub α, Mul α, Div α, Neg α where
  zero : α
  one : α
  le : α → α → Bool
  lt : α → α → Bool
  abs : α → α
  rem : α → α → α

namespace Endpoint

variable {α : Type} [Endpoint α]

/-- An end that is below itself is a number; the others compare with nothing. -/
def isNumber (a : α) : Bool := le a a

/-- Equality of numbers: each is below the other. -/
def same (a b : α) : Bool := le a b && le b a

/-- The lesser of two ends; one that is no number is ignored. -/
def lesser (a b : α) : α :=
  if !isNumber a then b else if !isNumber b then a else if lt b a then b else a

/-- The greater of two ends; one that is no number is ignored. -/
def greater (a b : α) : α :=
  if !isNumber a then b else if !isNumber b then a else if lt a b then b else a

end Endpoint

instance : Endpoint Float where
  zero := 0.0
  one := 1.0
  le a b := a ≤ b
  lt a b := a < b
  abs := Float.abs
  rem := Number.rem

/-! ## 2. Intervals -/

/-- The numbers from `lo` to `hi`, both included. -/
structure Interval (α : Type) where
  lo : α
  hi : α
  deriving Repr, DecidableEq, Inhabited

/-- An interval of binary64 numbers: what is known about a value. -/
abbrev Bound := Interval Float

namespace Interval

open Endpoint

variable {α : Type} [Endpoint α]

/-- The interval of two ends, provided that they are ordered numbers. -/
def of? (lo hi : α) : Option (Interval α) :=
  if isNumber lo && isNumber hi && !lt hi lo then some ⟨lo, hi⟩ else none

/-- The interval spanned by two numbers in either order. -/
def span (a b : α) : Interval α := ⟨lesser a b, greater a b⟩

/-- The interval of a single number. -/
def singleton (a : α) : Interval α := ⟨a, a⟩

/-- Whether the two ends are the same number. -/
def isSingleton (a : Interval α) : Bool := same a.lo a.hi

/-- Whether `x` lies between the ends. -/
def contains (a : Interval α) (x : α) : Bool := le a.lo x && le x a.hi

/-- Whether no number of the interval is below zero. -/
def isNonneg (a : Interval α) : Bool := le zero a.lo

/-- Whether two intervals have the same ends, as numbers. -/
def sameEnds (a b : Interval α) : Bool := same a.lo b.lo && same a.hi b.hi

/-- The smallest interval that holds both. -/
def hull (a b : Interval α) : Interval α := ⟨lesser a.lo b.lo, greater a.hi b.hi⟩

/-- The hull of a non-empty list of intervals. -/
def hullOf : List (Interval α) → Option (Interval α)
  | [] => none
  | a :: rest => some (rest.foldl hull a)

/-! ## 3. Arithmetic -/

/-- The interval spanned by four corner values, all of which must be numbers. -/
def ofCorners (a b c d : α) : Option (Interval α) :=
  if isNumber a && isNumber b && isNumber c && isNumber d then
    some ⟨lesser (lesser (lesser a b) c) d, greater (greater (greater a b) c) d⟩
  else none

/-- The image under a function that keeps the order. -/
def mapMonotone (f : α → α) (a : Interval α) : Option (Interval α) := of? (f a.lo) (f a.hi)

def add (a b : Interval α) : Interval α := ⟨a.lo + b.lo, a.hi + b.hi⟩

def sub (a b : Interval α) : Interval α := ⟨a.lo - b.hi, a.hi - b.lo⟩

def neg (a : Interval α) : Interval α := ⟨-a.hi, -a.lo⟩

/-- The product, from its four corners: a negative factor exchanges the ends. -/
def mul (a b : Interval α) : Option (Interval α) :=
  ofCorners (a.lo * b.lo) (a.lo * b.hi) (a.hi * b.lo) (a.hi * b.hi)

/-- The quotient; none when the divisor may be zero. -/
def div (a b : Interval α) : Option (Interval α) :=
  if b.contains zero then none
  else ofCorners (a.lo / b.lo) (a.lo / b.hi) (a.hi / b.lo) (a.hi / b.hi)

/-- The greatest magnitude of an end. -/
def magnitude (a : Interval α) : α := greater (abs a.lo) (abs a.hi)

/-- Remainder with the sign of the dividend. Two single numbers have an exact
remainder. A dividend smaller than every divisor passes through. Otherwise the
magnitude stays below the greatest divisor, by one for integers. -/
def rem (integral : Bool) (a b : Interval α) : Option (Interval α) :=
  if same b.lo zero && same b.hi zero then none
  else if a.isSingleton && b.isSingleton then
    let r := Endpoint.rem a.lo b.lo
    of? r r
  else
    let least :=
      if b.contains zero then (if integral then one else zero)
      else lesser (abs b.lo) (abs b.hi)
    if lt a.magnitude least then some a
    else
      let limit := if integral then b.magnitude - one else b.magnitude
      of? (if lt a.lo zero then greater a.lo (-limit) else zero)
        (if lt zero a.hi then lesser a.hi limit else zero)

/-! ## 4. Text -/

/-- The two ends in brackets. -/
def text (a : Bound) : String :=
  "[" ++ Number.plainText a.lo ++ ", " ++ Number.plainText a.hi ++ "]"

end Interval

end RangedIR
