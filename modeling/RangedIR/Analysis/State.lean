/-
RangedIR.Analysis.State — the state of an analysis.

A run goes through a function and the functions it calls; an activation goes
through one of them.
-/
import RangedIR.Analysis.Limits
import RangedIR.Analysis.Memory
import RangedIR.Analysis.Remark

namespace RangedIR

/-! ## 1. Runs -/

/-- What a run works on. -/
structure Context where
  module : Module
  layout : DataLayout
  limits : Limits
  /-- Whether a call may be answered from an earlier one with the same inputs. -/
  reuse : Bool
  deriving Inhabited

/-- The inputs of a call: bit patterns of what is known about the arguments and
the globals. -/
structure Signature where
  args : List (Option (UInt64 × UInt64))
  globals : List (GlobalId × UInt64 × UInt64)
  deriving DecidableEq, Repr

/-- The inputs of a call with given arguments in a scope. -/
def Bounds.signature (b : Bounds) (args : List (Option Bound)) : Signature where
  args := args.map fun a => a.map fun i => (i.lo.toBits, i.hi.toBits)
  globals := b.globalSignature

/-- What a call leaves behind. -/
structure Summary where
  result : Option Bound
  scope : Bounds
  deriving Inhabited

/-- A function that is being analysed, and where it was called. -/
structure Activation where
  function : FuncId
  site : Option Location
  deriving DecidableEq, Repr, Inhabited

/-- What is kept through a run. -/
structure Run where
  diagnostics : List Diagnostic
  /-- The functions that are being analysed, the innermost first. -/
  stack : List Activation
  /-- The calls that were followed. -/
  memo : Table (FuncId × Signature) Summary
  /-- The number of instructions looked at. -/
  visits : Nat
  /-- Whether it has been told that the budget is used up. -/
  budgetReported : Bool
  deriving Inhabited

namespace Run

/-- Nothing has been done. -/
def initial : Run := ⟨[], [], .empty, 0, false⟩

/-- The start of another run: only the diagnostics are kept. -/
def restart (r : Run) : Run := { initial with diagnostics := r.diagnostics }

/-- Tell something. -/
def tell (r : Run) (d : Diagnostic) : Run := { r with diagnostics := r.diagnostics ++ [d] }

/-- Whether a function is being analysed. -/
def isActive (r : Run) (f : FuncId) : Bool := r.stack.any (·.function == f)

/-- Count one instruction, and whether it may be looked at. The first that may
not is told. -/
def tick (r : Run) (limits : Limits) (function : String) : Run × Bool :=
  let r := { r with visits := r.visits + 1 }
  if r.visits ≤ limits.maxVisits then (r, true)
  else if r.budgetReported then (r, false)
  else
    let remark := Remark.budgetExhausted limits.maxVisits
    ({ r with budgetReported := true }.tell (remark.diagnostic ⟨function, none⟩), false)

end Run

/-! ## 2. States -/

/-- The state inside one function: the run, the frame and what is known. -/
structure State where
  run : Run
  frame : Frame
  bounds : Bounds
  deriving Inhabited

namespace State

/-- What is known about an operand. -/
def operand? (s : State) (op : Operand) : Option Bound := s.bounds.operand? s.frame.id op

/-- Tell something about an instruction. -/
def tell (s : State) (id : InstId) (r : Remark) : State :=
  { s with run := s.run.tell (r.diagnostic (s.frame.location id)) }

/-- Tell everything that came with a result, and answer the result. -/
def conclude (s : State) (id : InstId) (o : Outcome) : State × Option Bound :=
  (o.remarks.foldl (fun s r => s.tell id r) s, o.value)

/-- Forget the memory under every key that passes a test, given its object. -/
def forgetWhere (s : State) (m : Module) (stale : ValueKey → Option ValueKey → Bool) : State :=
  { s with bounds := s.frame.forgetWhere m s.bounds stale }

/-- Change what is known about addresses. -/
def withAliases (s : State) (f : AliasTable → AliasTable) : State :=
  { s with frame := { s.frame with aliases := f s.frame.aliases } }

/-- Forget what the unions of an object hold, or of all objects. -/
def invalidate (s : State) : Option ValueKey → State
  | some root => s.withAliases (·.invalidate root)
  | none => s.withAliases (·.invalidateAll)

/-- Put back a memory state. -/
def restore (s : State) (m : Module) (mem : MemoryState) : State :=
  { s with bounds := s.frame.restoreSlots m s.bounds mem, frame := s.frame.restoreUnions mem }

end State

end RangedIR
