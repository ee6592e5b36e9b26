/-
RangedIR.Analysis.Remark — what an analysis tells about single instructions.
-/
import RangedIR.Code.Type
import RangedIR.Diagnostic
import RangedIR.Interval.Basic
import RangedIR.Opcode

namespace RangedIR

/-- Something worth telling about an instruction. -/
inductive Remark where
  /-- Both operands of an operation are literals. -/
  | literalOperands (op : BinaryOp)
  /-- The operands of a commutative operation were exchanged. -/
  | literalOnLeft (op : BinaryOp)
  /-- An operand of a bitwise operation may be negative. -/
  | negativeBits (op : BinaryOp) (a b : Bound)
  /-- An operation has no transfer function at a type. -/
  | operationNotModelled (op : BinaryOp) (ty : Ty)
  /-- A result may leave its type. -/
  | mayWrap (op : BinaryOp) (ty : Ty) (result : Bound)
  /-- A conversion has no transfer function at a type. -/
  | castNotModelled (op : CastOp) (ty : Ty)
  /-- A narrowing conversion was taken end by end. -/
  | narrowing (op : CastOp) (source result : Bound)
  /-- A conversion to `float` overflows. -/
  | singleOverflow (source : Bound)
  /-- A value seen as another type has no transfer function. -/
  | viewNotModelled (src dst : Ty)
  /-- A function that is not defined here has no transfer function. -/
  | callNotModelled (callee : String)
  /-- A call leads back to a function that is being analysed. -/
  | recursiveCall (callee : String) (path : List Cause)
  /-- A call is nested too deep. -/
  | depthReached (limit : Nat) (callee : String)
  /-- The declared range of a result is not the computed one. -/
  | resultOutsideRange (callee quantity : String) (declared inferred : Bound)
  /-- The visit budget is used up. -/
  | budgetExhausted (limit : Nat)
  deriving Repr

namespace Remark

def code : Remark → DiagCode
  | literalOperands _ => .literalOperands
  | literalOnLeft _ => .literalOnLeft
  | negativeBits .. => .negativeBits
  | operationNotModelled .. | castNotModelled .. | viewNotModelled .. | callNotModelled _ =>
    .notModelled
  | mayWrap .. => .mayWrap
  | narrowing .. | singleOverflow _ => .narrowing
  | recursiveCall .. | depthReached .. => .callNotFollowed
  | resultOutsideRange .. => .resultOutsideRange
  | budgetExhausted _ => .budgetExhausted

/-- Remarks on approximations and on calls and limits are warnings, the others notes. -/
def level : Remark → DiagLevel
  | narrowing .. | singleOverflow _ | recursiveCall .. | depthReached .. | resultOutsideRange ..
  | budgetExhausted _ => .warning
  | _ => .note

def message : Remark → String
  | literalOperands op =>
    "both operands of `" ++ op.name ++ "` are literals; expected to be folded earlier"
  | literalOnLeft op => "literal operand of `" ++ op.name ++ "` normalized to the right"
  | negativeBits op a b =>
    "`" ++ op.name ++ "` operand may be negative (" ++ a.text ++ ", " ++ b.text ++
      "); no bound recorded"
  | operationNotModelled op ty => "`" ++ op.name ++ "` on `" ++ ty.text ++ "` is not modeled"
  | mayWrap op ty i =>
    "`" ++ op.name ++ "` on `" ++ ty.text ++ "` may wrap (" ++ i.text ++ "); no bound recorded"
  | castNotModelled op ty => "`" ++ op.name ++ "` involving `" ++ ty.text ++ "` is not modeled"
  | narrowing op source result =>
    "`" ++ op.name ++ "` of " ++ source.text ++
      " crosses the target range; endpoints reinterpreted as " ++ result.text
  | singleOverflow source =>
    "`fptrunc` of " ++ source.text ++ " overflows `float`; no bound recorded"
  | viewNotModelled src dst =>
    "`bitcast` from `" ++ src.text ++ "` to `" ++ dst.text ++ "` is not modeled"
  | callNotModelled callee => "call to external `@" ++ callee ++ "` is not modeled"
  | recursiveCall callee _ => "recursive call to `@" ++ callee ++ "` is not analyzed"
  | depthReached limit callee =>
    "call depth limit of " ++ Nat.repr limit ++ " reached at `@" ++ callee ++ "`"
  | resultOutsideRange callee quantity declared inferred =>
    "`@" ++ callee ++ "` declares return range `" ++ quantity ++ "` " ++ declared.text ++ " but " ++
      inferred.text ++ " was inferred"
  | budgetExhausted limit =>
    "visit budget of " ++ Nat.repr limit ++
      " instructions exhausted; remaining instructions not analyzed"

def hint : Remark → Option String
  | narrowing .. => some "the recorded bound may not contain every converted value"
  | depthReached .. => some "raise --max-call-depth"
  | resultOutsideRange .. => some "the inferred range is used"
  | budgetExhausted _ => some "raise --max-visits"
  | _ => none

def causes : Remark → List Cause
  | recursiveCall _ path => path
  | _ => []

/-- The diagnostic of a remark on a place. -/
def diagnostic (r : Remark) (place : Location) : Diagnostic :=
  ⟨some r.code, r.level, some place, r.message, r.hint, r.causes⟩

end Remark

/-- What is known about a result, and what is told on the way. -/
structure Outcome where
  value : Option Bound
  remarks : List Remark
  deriving Repr

namespace Outcome

/-- A result without remarks. -/
def plain (value : Option Bound) : Outcome := ⟨value, []⟩

/-- A known result. -/
def known (i : Bound) : Outcome := plain (some i)

/-- No result. -/
def unknown : Outcome := plain none

/-- No result, and why. -/
def refused (r : Remark) : Outcome := ⟨none, [r]⟩

end Outcome

end RangedIR
