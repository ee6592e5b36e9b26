/-
RangedIR.Optimize.Alignment — alignments that the layout asks for.

Stores get the alignment of what they store, loads that are bound to a source
variable and have an interval that of what they load, and allocas of
structures that of the structure. Everything else keeps its alignment.
-/
import RangedIR.Analysis.Bounds
import RangedIR.Layout

namespace RangedIR

/-- How many alignments were changed. -/
structure AlignmentStats where
  stores : Nat
  loads : Nat
  allocas : Nat
  deriving DecidableEq, Repr, Inhabited

namespace AlignmentStats

def zero : AlignmentStats := ⟨0, 0, 0⟩

def add (a b : AlignmentStats) : AlignmentStats :=
  ⟨a.stores + b.stores, a.loads + b.loads, a.allocas + b.allocas⟩

def total (s : AlignmentStats) : Nat := s.stores + s.loads + s.allocas

/-- One change of an instruction. -/
def ofKind : InstKind → AlignmentStats
  | .store .. => ⟨1, 0, 0⟩
  | .load .. => ⟨0, 1, 0⟩
  | .alloca .. => ⟨0, 0, 1⟩
  | _ => zero

end AlignmentStats

namespace Function

/-- The alignment an instruction has, and the type that decides which it should have. -/
def alignmentOf? (id : FuncId) (b : Bounds) (i : InstId) (inst : Inst) : Option (Option Nat × Ty) :=
  match inst.kind with
  | .store _ valueTy _ _ align => some (align, valueTy)
  | .load _ _ align =>
    if inst.dbg.isSome && b.contains (.inst id i) then some (align, inst.ty) else none
  | .alloca allocated align => if allocated.isStruct then some (align, allocated) else none
  | _ => none

/-- The alignment an instruction should have and does not. -/
def missingAlign? (id : FuncId) (b : Bounds) (l : DataLayout) (i : InstId) (inst : Inst) :
    Option Nat :=
  match alignmentOf? id b i inst with
  | some (current, ty) =>
    let required := l.abiAlign ty
    if current = some required then none else some required
  | none => none

/-- Correct alignments in the given order, and count them. -/
def correctIn (id : FuncId) (b : Bounds) (l : DataLayout) :
    List InstId → Function → Function × AlignmentStats
  | [], f => (f, .zero)
  | i :: rest, f =>
    match f.inst? i with
    | none => correctIn id b l rest f
    | some inst =>
      match missingAlign? id b l i inst with
      | none => correctIn id b l rest f
      | some a =>
        let (f, stats) := correctIn id b l rest ((f.setAlign? i a).getD f)
        (f, stats.add (.ofKind inst.kind))

/-- Give stores, bound loads and structure allocas their alignments. -/
def correctAlignment (f : Function) (id : FuncId) (b : Bounds) (l : DataLayout) :
    Function × AlignmentStats :=
  correctIn id b l f.layout f

end Function

end RangedIR
