/-
RangedIR.Analysis.Routine — numeric routines that are known by name.
-/
import RangedIR.Interval.Word
import RangedIR.Text.Digits

namespace RangedIR

/-- A routine of one real variable, or of two for `scalbn`. -/
inductive Routine where
  | log | log1p | exp | sqrt | sin | cos | fabs | floor | ceil | scalbn
  deriving DecidableEq, Repr

namespace Routine

open Number

def name : Routine → String
  | log => "log" | log1p => "log1p" | exp => "exp" | sqrt => "sqrt" | sin => "sin" | cos => "cos"
  | fabs => "fabs" | floor => "floor" | ceil => "ceil" | scalbn => "scalbn"

def all : List Routine := [log, log1p, exp, sqrt, sin, cos, fabs, floor, ceil, scalbn]

/-- The beginning of the names of built-in routines. -/
def builtinMark : List Char := "llvm.".toList

/-- The name without the mark of a built-in routine and without type suffixes. -/
def stem (callee : String) : List Char :=
  let cs := callee.toList
  let cs := if builtinMark.isPrefixOf cs then cs.drop builtinMark.length else cs
  cs.takeWhile (· != '.')

/-- The routine that a name calls. A letter `f` behind the name asks for single
precision. -/
def ofName? (callee : String) : Option Routine :=
  let cs := stem callee
  all.find? fun r => cs == r.name.toList || cs == r.name.toList ++ ['f']

/-- The magnitudes of the numbers of an interval. -/
def magnitudes (x : Bound) : Bound :=
  if x.isNonneg then x
  else if x.hi ≤ 0.0 then x.neg
  else ⟨0.0, Endpoint.greater x.lo.abs x.hi⟩

/-- The results of a routine on the given arguments. -/
def apply (r : Routine) (args : List Bound) : Option Bound :=
  match args with
  | [] => none
  | x :: rest =>
    match r with
    | log => x.mapMonotone Elementary.log
    | log1p => x.mapMonotone Elementary.log1p
    | exp => x.mapMonotone Elementary.exp
    | sqrt => x.mapMonotone fun v => if v < 0.0 then 0.0 else v.sqrt
    | sin | cos => some ⟨-1.0, 1.0⟩
    | fabs => some (magnitudes x)
    | floor => x.mapMonotone Number.floor
    | ceil => x.mapMonotone Number.ceil
    | scalbn =>
      match rest with
      | n :: _ => x.mul (.span (Elementary.exp2 n.lo) (Elementary.exp2 n.hi))
      | [] => none

end Routine

end RangedIR
