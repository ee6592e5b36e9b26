/-
RangedIR.Optimize.Constants — results of which only one value is possible.

Only arithmetic is replaced; conversions, loads and calls stay even if their
result is a single number.
-/
import RangedIR.Optimize.ControlFlow

namespace RangedIR.Function

/-- The literal that an arithmetic instruction always yields, if its type has it. -/
def literalResult? (f : Function) (id : FuncId) (b : Bounds) (i : InstId) : Option Constant := do
  let inst ← f.inst? i
  match inst.kind with
  | .binary .. =>
    let r ← b.get? (.inst id i)
    if !inst.erased && r.isSingleton then Constant.forType? inst.ty r.lo else none
  | _ => none

/-- Replace instructions by their literals in the given order, and count them. -/
def substituteIn (id : FuncId) (b : Bounds) : List InstId → Function → Function × Nat
  | [], f => (f, 0)
  | i :: rest, f =>
    match f.literalResult? id b i with
    | some c =>
      let (f, n) := substituteIn id b rest (f.replaceBy i (.const c))
      (f, n + 1)
    | none => substituteIn id b rest f

/-- Replace arithmetic with a single possible value by that value. -/
def substituteConstants (f : Function) (id : FuncId) (b : Bounds) : Function × Nat :=
  substituteIn id b f.layout f

end RangedIR.Function
