/-
RangedIR.Analysis.Limits — how much work an analysis may do.
-/

namespace RangedIR

/-- Bounds on the work of an analysis. -/
structure Limits where
  /-- The greatest number of functions that are followed into one another. -/
  maxCallDepth : Nat
  /-- The greatest number of instructions looked at for one function, those of
  the functions it calls included. -/
  maxVisits : Nat
  deriving DecidableEq, Repr

namespace Limits

def default : Limits := ⟨32, 1000000⟩

instance : Inhabited Limits := ⟨default⟩

end Limits

end RangedIR
