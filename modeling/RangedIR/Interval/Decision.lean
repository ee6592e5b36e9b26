/-
RangedIR.Interval.Decision — what two intervals say about a comparison.

A comparison of two values known only by their intervals is always true, never
true, or depends on the values.
-/
import RangedIR.Interval.Basic
import RangedIR.Opcode

namespace RangedIR

/-- The outcome of a comparison of intervals. -/
inductive Decision where
  | depends
  | alwaysTrue
  | alwaysFalse
  deriving DecidableEq, Repr

namespace Decision

/-- The outcome from what is certain: `always` wins over `never`. -/
def ofCertainty (always never : Bool) : Decision :=
  if always then .alwaysTrue else if never then .alwaysFalse else .depends

/-- The truth value, when it is certain. -/
def value? : Decision → Option Bool
  | .alwaysTrue => some true
  | .alwaysFalse => some false
  | .depends => none

/-- The interval of the one-bit result. -/
def bound : Decision → Bound
  | .alwaysTrue => .singleton 1.0
  | .alwaysFalse => .singleton 0.0
  | .depends => .span 0.0 1.0

end Decision

/-- The six ways to compare two numbers. -/
inductive Order where
  | eq | ne | lt | le | gt | ge
  deriving DecidableEq, Repr

namespace Order

variable {α : Type} [Endpoint α]

/-- Both intervals are the same single number. -/
def coincide (a b : Interval α) : Bool := a.isSingleton && b.isSingleton && Endpoint.same a.lo b.lo

/-- The intervals have no number in common. -/
def apart (a b : Interval α) : Bool := Endpoint.lt a.hi b.lo || Endpoint.lt b.hi a.lo

/-- What two intervals say about a comparison. -/
def decide (order : Order) (a b : Interval α) : Decision :=
  match order with
  | .eq => .ofCertainty (coincide a b) (apart a b)
  | .ne => .ofCertainty (apart a b) (coincide a b)
  | .lt => .ofCertainty (Endpoint.lt a.hi b.lo) (Endpoint.le b.hi a.lo)
  | .le => .ofCertainty (Endpoint.le a.hi b.lo) (Endpoint.lt b.hi a.lo)
  | .gt => .ofCertainty (Endpoint.lt b.hi a.lo) (Endpoint.le a.hi b.lo)
  | .ge => .ofCertainty (Endpoint.le b.hi a.lo) (Endpoint.lt a.hi b.lo)

end Order

namespace IntPredicate

/-- The order a predicate asks for, signs aside. -/
def order : IntPredicate → Order
  | eq => .eq | ne => .ne
  | ult | slt => .lt | ule | sle => .le
  | ugt | sgt => .gt | uge | sge => .ge

/-- The outcome of an integer comparison. Unsigned predicates are decided only
where nothing is negative. -/
def decide {α : Type} [Endpoint α] (p : IntPredicate) (a b : Interval α) : Decision :=
  if p.isUnsigned && !(a.isNonneg && b.isNonneg) then .depends else p.order.decide a b

end IntPredicate

namespace FloatPredicate

/-- The order a predicate asks for; the other four ask for none. -/
def order? : FloatPredicate → Option Order
  | never | always | ord | uno => none
  | oeq | ueq => some .eq
  | one | une => some .ne
  | olt | ult => some .lt
  | ole | ule => some .le
  | ogt | ugt => some .gt
  | oge | uge => some .ge

/-- The outcome of a floating-point comparison. Intervals hold numbers only, so
ordered and unordered predicates agree, and the two tests for numbers stay open. -/
def decide {α : Type} [Endpoint α] (p : FloatPredicate) (a b : Interval α) : Decision :=
  match p with
  | .always => .alwaysTrue
  | .never => .alwaysFalse
  | p =>
    match p.order? with
    | some order => order.decide a b
    | none => .depends

end FloatPredicate

end RangedIR
