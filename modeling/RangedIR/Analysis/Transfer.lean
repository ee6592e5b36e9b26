/-
RangedIR.Analysis.Transfer — intervals of results from intervals of operands.

Arithmetic and conversions, as functions of the operands' intervals and the
types alone. Integer results are taken back into their type.
-/
import RangedIR.Analysis.Remark
import RangedIR.Code.Instruction
import RangedIR.Interval.Word

namespace RangedIR.Transfer

open Number

/-! ## 1. Integer ranges -/

/-- Whether an interval lies in the signed range of a width. -/
def fits (i : Bound) (bits : Nat) : Bool := signedMin bits ≤ i.lo && i.hi ≤ signedMax bits

/-- The interval of the low `bits` bits, read as signed, if that is one piece:
the ends wrap without changing their order and there are not too many values. -/
def wrapped? (i : Bound) (bits : Nat) : Option Bound :=
  let lo := wrapSigned i.lo bits
  let hi := wrapSigned i.hi bits
  if i.hi - i.lo ≤ unsignedMax bits && lo ≤ hi then some ⟨lo, hi⟩ else none

/-- The interval with both ends taken toward zero. -/
def truncated (i : Bound) : Bound := .span (trunc i.lo) (trunc i.hi)

/-- The unsigned reading of signed words of a width. -/
def asUnsigned (i : Bound) (bits : Nat) : Bound :=
  let size := unsignedMax bits + 1.0
  if i.isNonneg then i
  else if i.hi < 0.0 then ⟨i.lo + size, i.hi + size⟩
  else ⟨0.0, unsignedMax bits⟩

/-! ## 2. Binary operations -/

/-- The exact result of an operation, before it is taken into its type. Shifts
need a width. -/
def exact (op : BinaryOp) (bits : Option Nat) (a b : Bound) : Option Bound :=
  match op with
  | .add | .fadd => some (a.add b)
  | .sub | .fsub => some (a.sub b)
  | .mul | .fmul => a.mul b
  | .fdiv => a.div b
  | .sdiv | .udiv => (a.div b).map truncated
  | .srem | .urem => a.rem true b
  | .frem => a.rem false b
  | .and => a.and b
  | .or => a.or b
  | .xor => a.xor b
  | .shl => bits.bind (a.shl b)
  | .lshr | .ashr => bits.bind (a.shr b)

/-- Take a result into its type. Integers of more than one bit wrap. -/
def intoType (op : BinaryOp) (ty : Ty) (i : Bound) : Outcome :=
  match ty.intBits? with
  | some bits =>
    if bits ≤ 1 || fits i bits then .known i
    else
      match wrapped? i bits with
      | some w => .known w
      | none => .refused (.mayWrap op ty i)
  | none => .known i

/-- Whether an operation shifts its first operand. -/
def isShift : BinaryOp → Bool
  | .shl | .lshr | .ashr => true
  | _ => false

/-- The result of an operation on two intervals. -/
def binaryOn (op : BinaryOp) (ty : Ty) (a b : Bound) : Outcome :=
  let nonneg := a.isNonneg && b.isNonneg
  if op.isBitwise && !nonneg then .refused (.negativeBits op a b)
  else if op.isUnsigned && !nonneg then .unknown
  else if isShift op && !ty.isInteger then .refused (.operationNotModelled op ty)
  else
    match exact op ty.intBits? a b with
    | some i => intoType op ty i
    | none => .unknown

/-- Whether an operand is a literal. -/
def isLiteral : Operand → Bool
  | .const _ => true
  | _ => false

/-- The result of an operation on two operands. A literal on the left of a
commutative operation is taken to the right. -/
def binary (op : BinaryOp) (ty : Ty) (lookup : Operand → Option Bound) (lhs rhs : Operand) :
    Outcome :=
  let swap := isLiteral lhs && !isLiteral rhs && op.isCommutative
  let notes :=
    if isLiteral lhs && isLiteral rhs then [Remark.literalOperands op]
    else if swap then [Remark.literalOnLeft op] else []
  let first := if swap then rhs else lhs
  let second := if swap then lhs else rhs
  let result := match lookup first, lookup second with
    | some a, some b => binaryOn op ty a b
    | _, _ => .unknown
  { result with remarks := notes ++ result.remarks }

/-! ## 3. Conversions -/

/-- Narrow to a signed width. Exact if the interval fits or wraps in one piece;
otherwise taken end by end. -/
def narrow (op : CastOp) (i : Bound) (bits : Nat) : Outcome :=
  if fits i bits then .known i
  else
    match wrapped? i bits with
    | some w => .known w
    | none =>
      let r := Interval.span (wrapSigned i.lo bits) (wrapSigned i.hi bits)
      ⟨some r, [.narrowing op i r]⟩

/-- Convert to an unsigned width. -/
def toUnsigned (i : Bound) (bits : Nat) : Outcome :=
  let t := truncated i
  if 0.0 ≤ t.lo && t.hi ≤ unsignedMax bits then .known t
  else
    let wrap (v : Float) : Float := remEuclid v (unsignedMax bits + 1.0)
    let r := Interval.span (wrap t.lo) (wrap t.hi)
    ⟨some r, [.narrowing .fptoui t r]⟩

/-- Convert to `float`. Rounding may move an end inward, so the interval before
it is kept as well. -/
def toSingle (i : Bound) : Outcome :=
  let r := Interval.span (Number.toSingle i.lo) (Number.toSingle i.hi)
  if r.lo.isFinite && r.hi.isFinite then .known (r.hull i) else .refused (.singleOverflow i)

/-- Something that needs the width of an integer type. -/
def withBits (op : CastOp) (ty : Ty) (f : Nat → Outcome) : Outcome :=
  match ty.intBits? with
  | some bits => f bits
  | none => .refused (.castNotModelled op ty)

/-- The result of a conversion of an interval. -/
def cast (op : CastOp) (src dst : Ty) (i : Bound) : Outcome :=
  match op with
  | .sext | .fpext | .sitofp => .known i
  | .zext | .uitofp => withBits op src fun bits => .known (asUnsigned i bits)
  | .trunc => withBits op dst (narrow op i)
  | .fptosi => withBits op dst (narrow op (truncated i))
  | .fptoui => withBits op dst (toUnsigned i)
  | .fptrunc => toSingle i

end RangedIR.Transfer
