/-
RangedIR.Code.Constant — literal values.
-/
import RangedIR.Code.Type
import RangedIR.Number.Style

namespace RangedIR

/-- A literal: a 64-bit integer, a binary64 number or a truth value. -/
inductive Constant where
  | int (value : Int)
  | float (value : Float)
  | bool (value : Bool)
  deriving Repr, Inhabited, DecidableEq

namespace Constant

/-- The number a literal stands for. -/
def value : Constant → Float
  | int v => Number.ofInt v
  | float v => v
  | bool b => if b then 1.0 else 0.0

/-- The literal of a type with a given value: none for a fraction in an integer
type, for a value outside 64 bits, and for an infinity. -/
def forType? (ty : Ty) (v : Float) : Option Constant :=
  match ty with
  | .int bits =>
    if bits == 1 && (v == 0.0 || v == 1.0) then some (bool (v == 1.0))
    else if Number.isIntegral v && signed64Min ≤ v && v < -signed64Min then
      some (int (Number.toSigned64 v))
    else none
  | .float | .double => if v.isFinite then some (float v) else none
  | _ => none
where
  /-- `-2^63` -/
  signed64Min : Float := -9223372036854775808.0

/-- The text of a literal. -/
def text : Constant → String
  | int v => Int.repr v
  | float v => Number.literalText v
  | bool b => if b then "true" else "false"

end Constant

end RangedIR
