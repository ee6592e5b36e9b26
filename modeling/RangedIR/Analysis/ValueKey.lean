/-
RangedIR.Analysis.ValueKey — the values that facts are kept about.

A key names its function, so that facts about two functions can stand in one
table.
-/
import RangedIR.Code.Module

namespace RangedIR

/-- A value that may have an interval. -/
inductive ValueKey where
  | inst (function : FuncId) (id : InstId)
  | arg (function : FuncId) (index : Nat)
  | global (id : GlobalId)
  deriving DecidableEq, Repr, Inhabited

namespace ValueKey

def isGlobal : ValueKey → Bool
  | global _ => true
  | _ => false

/-- The function whose value it is. -/
def function? : ValueKey → Option FuncId
  | inst f _ | arg f _ => some f
  | global _ => none

/-- The key of an operand in a function. Literals have none. -/
def ofOperand? (f : FuncId) : Operand → Option ValueKey
  | .inst id => some (inst f id)
  | .arg i => some (arg f i)
  | .global g => some (global g)
  | .const _ | .undef => none

/-- The name of a value in a module: a global by its own name, other values
behind the name of their function. -/
def name? (m : Module) : ValueKey → Option String
  | global g => m.globals[g]?.map fun g => "@" ++ g.name
  | inst f id => do
    let f ← m.functions[f]?
    pure ("@" ++ f.name ++ ":" ++ (← f.valueName? (.inst id)))
  | arg f i => do
    let f ← m.functions[f]?
    pure ("@" ++ f.name ++ ":" ++ (← f.valueName? (.arg i)))

end ValueKey

end RangedIR
