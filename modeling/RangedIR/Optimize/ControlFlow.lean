/-
RangedIR.Optimize.ControlFlow — comparisons and branches that can go one way only.

A comparison that the intervals of its operands decide becomes a literal, a
branch on a literal becomes a jump, and blocks that are no longer reached are
removed.
-/
import RangedIR.Analysis.Bounds
import RangedIR.Analysis.Transfer
import RangedIR.Interval.Decision

namespace RangedIR

/-- How often control flow was changed. -/
structure ControlFlowStats where
  foldedCompares : Nat
  foldedBranches : Nat
  removedBlocks : Nat
  collapsedPhis : Nat
  deriving DecidableEq, Repr, Inhabited

namespace ControlFlowStats

def zero : ControlFlowStats := ⟨0, 0, 0, 0⟩

def add (a b : ControlFlowStats) : ControlFlowStats :=
  ⟨a.foldedCompares + b.foldedCompares, a.foldedBranches + b.foldedBranches,
    a.removedBlocks + b.removedBlocks, a.collapsedPhis + b.collapsedPhis⟩

end ControlFlowStats

/-! ## 1. Comparisons -/

/-- A comparison with a literal taken to the right. -/
def InstKind.literalRight (k : InstKind) : InstKind :=
  match k with
  | .icmp p ty lhs rhs =>
    if Transfer.isLiteral lhs && !Transfer.isLiteral rhs then .icmp p.swapped ty rhs lhs else k
  | .fcmp p ty lhs rhs =>
    if Transfer.isLiteral lhs && !Transfer.isLiteral rhs then .fcmp p.swapped ty rhs lhs else k
  | k => k

/-- The outcome of a comparison, if the intervals of its operands decide it. Two
predicates are decided without operands. -/
def InstKind.outcome? (k : InstKind) (lookup : Operand → Option Bound) : Option Bool :=
  match k with
  | .icmp p _ lhs rhs => do (p.decide (← lookup lhs) (← lookup rhs)).value?
  | .fcmp .always .. => some true
  | .fcmp .never .. => some false
  | .fcmp p _ lhs rhs => do (p.decide (← lookup lhs) (← lookup rhs)).value?
  | _ => none

namespace Function

/-- Replace an instruction by an operand. -/
def replaceBy (f : Function) (id : InstId) (op : Operand) : Function :=
  (f.replaceUses id op).erase id

/-- Fold comparisons in the given order, and count those that were decided. -/
def foldCompares (id : FuncId) (b : Bounds) : List InstId → Function → Function × Nat
  | [], f => (f, 0)
  | i :: rest, f =>
    let f := f.modifyInst i fun inst => { inst with kind := inst.kind.literalRight }
    match (f.kind? i).bind (·.outcome? (b.operand? id)) with
    | some value =>
      let (f, n) := foldCompares id b rest (f.replaceBy i (.const (.bool value)))
      (f, n + 1)
    | none => foldCompares id b rest f

/-! ## 2. Branches -/

/-- The one block a conditional branch can lead to, if there is one. -/
def onlyTarget? : InstKind → Option BlockId
  | .condBr (.const c) t e => some (if c.value == 0.0 then e else t)
  | .condBr _ t e => if t = e then some t else none
  | _ => none

/-- Turn the branch at the end of a block into a jump, if it can lead to one
block only. -/
def foldBranch (f : Function) (b : BlockId) : Function × Nat :=
  match f.terminator? b with
  | none => (f, 0)
  | some t =>
    match (f.kind? t).bind onlyTarget? with
    | some target => (f.modifyInst t fun i => { i with kind := .br target }, 1)
    | none => (f, 0)

/-- Turn branches into jumps, block by block, and count them. -/
def foldBranches : List BlockId → Function → Function × Nat
  | [], f => (f, 0)
  | b :: rest, f =>
    let (f, n) := f.foldBranch b
    let (f, k) := foldBranches rest f
    (f, n + k)

/-- Drop the values of live phis that come from blocks which do not lead to them. -/
def dropStaleIncoming (f : Function) : Function :=
  let preds := f.predecessors
  let live := f.layout
  { f with
    insts := f.insts.mapIdx fun id i =>
      if live.contains id then
        { i with kind := i.kind.filterIncoming fun b => (preds[i.block]?.getD []).contains b }
      else i }

/-! ## 3. Blocks and phis -/

/-- Remove the blocks that are not reached, and count them. -/
def removeUnreachable (f : Function) : Function × Nat :=
  let keep := f.reachable none
  let removed := keep.count false
  if removed = 0 then (f, 0) else (f.retainBlocks keep, removed)

/-- The value of a phi with one value other than itself. -/
def onlyIncoming? (id : InstId) : InstKind → Option Operand
  | .phi [(op, _)] => if op.inst? = some id then none else some op
  | _ => none

/-- Replace phis of one value by that value, and count them. -/
def collapsePhis : List InstId → Function → Function × Nat
  | [], f => (f, 0)
  | id :: rest, f =>
    match (f.kind? id).bind (onlyIncoming? id) with
    | some op =>
      let (f, n) := collapsePhis rest (f.replaceBy id op)
      (f, n + 1)
    | none => collapsePhis rest f

/-- Simplify the control flow of a function by what is known about its values. -/
def simplifyControlFlow (f : Function) (id : FuncId) (b : Bounds) : Function × ControlFlowStats :=
  let (f, compares) := foldCompares id b f.layout f
  let (f, branches) := foldBranches (List.range f.blocks.length) f
  let (f, removed) := f.dropStaleIncoming.removeUnreachable
  let (f, phis) := collapsePhis f.layout f
  (f, ⟨compares, branches, removed, phis⟩)

end Function

end RangedIR
