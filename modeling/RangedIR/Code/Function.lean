/-
RangedIR.Code.Function — functions as blocks of numbered instructions.

A function keeps all its instructions in one list, in the order of their
numbers; blocks list the numbers of those that are live. Taking out an
instruction removes it from its block and marks it, so that no number changes.
-/
import RangedIR.Code.Instruction

namespace RangedIR

-- sums start from the zero of the core library
attribute [local instance (high)] Zero.ofOfNat0

/-- A parameter of a function. -/
structure Param where
  name : String
  ty : Ty
  deriving Repr, Inhabited

/-- A labelled block. -/
structure Block where
  label : String
  insts : List InstId
  deriving DecidableEq, Repr, Inhabited

/-- A function with its body. -/
structure Function where
  name : String
  retTy : Ty
  params : List Param
  /-- The physical quantity that the result is declared to be. -/
  rangeType : Option String
  blocks : List Block
  insts : List Inst
  deriving Repr, Inhabited

namespace Function

/-! ## 1. Instructions and values -/

/-- The instruction with a given number. -/
def inst? (f : Function) (id : InstId) : Option Inst := f.insts[id]?

/-- What the instruction with a given number does. -/
def kind? (f : Function) (id : InstId) : Option InstKind := (f.inst? id).map (·.kind)

/-- The live instructions, in the order in which the blocks list them. -/
def layout (f : Function) : List InstId := f.blocks.flatMap (·.insts)

/-- The written form of a value; none for an instruction that does not exist. -/
def valueName? (f : Function) : Operand → Option String
  | .inst id =>
    (f.inst? id).map fun i =>
      match i.name with
      | some n => "%" ++ n
      | none => "%<" ++ Nat.repr id ++ ">"
  | .arg i =>
    match f.params[i]? with
    | some p => some ("%" ++ p.name)
    | none => some ("%<arg" ++ Nat.repr i ++ ">")
  | .global g => some ("@<" ++ Nat.repr g ++ ">")
  | .const c => some c.text
  | .undef => some "undef"

/-- The live instructions that have `id` among their operands. -/
def users (f : Function) (id : InstId) : List InstId :=
  f.layout.filter fun u =>
    match f.kind? u with
    | some k => k.operands.any fun op => op.inst? == some id
    | none => false

/-! ## 2. Control flow -/

/-- The branch or return that ends a block, if its last instruction is one. -/
def terminator? (f : Function) (b : BlockId) : Option InstId := do
  let block ← f.blocks[b]?
  let last ← block.insts.getLast?
  let k ← f.kind? last
  if k.isTerminator then some last else none

/-- The blocks that a block may lead to. -/
def successors (f : Function) (b : BlockId) : List BlockId :=
  match (f.terminator? b).bind f.kind? with
  | some k => k.successors
  | none => []

/-- All pairs of a block and one it leads to, in the order of the blocks. A
branch with two equal targets gives its pair twice. -/
def edges (f : Function) : List (BlockId × BlockId) :=
  (List.range f.blocks.length).flatMap fun a => (f.successors a).map fun b => (a, b)

/-- For each block the blocks that lead to it. -/
def predecessors (f : Function) : List (List BlockId) :=
  let edges := f.edges
  (List.range f.blocks.length).map fun b =>
    edges.filterMap fun (a, c) => if c = b then some a else none

/-- Go through the blocks on a stack and those next to them. `seen` holds the
blocks already met; blocks that fail `allowed` are not entered. -/
def visitBlocks (next : BlockId → List BlockId) (allowed : BlockId → Bool) :
    Nat → List BlockId → List BlockId → List BlockId
  | 0, _, seen => seen
  | _ + 1, [], seen => seen
  | fuel + 1, b :: stack, seen =>
    if allowed b && !seen.contains b then visitBlocks next allowed fuel (next b ++ stack) (b :: seen)
    else visitBlocks next allowed fuel stack seen

/-- The blocks that can be reached from the first one without passing `avoid`.
A block is entered once and adds at most two to the stack. -/
def reachableBlocks (f : Function) (avoid : Option BlockId) : List BlockId :=
  visitBlocks f.successors (fun b => b < f.blocks.length && some b != avoid)
    (2 * f.blocks.length + 1) [0] []

/-- For each block whether it can be reached from the first one without passing
`avoid`. Among the blocks that can be reached at all, those left out are
dominated by `avoid`. -/
def reachable (f : Function) (avoid : Option BlockId) : List Bool :=
  let found := f.reachableBlocks avoid
  (List.range f.blocks.length).map found.contains

/-! ## 3. Changes -/

/-- Change the instruction with a given number. -/
def modifyInst (f : Function) (id : InstId) (g : Inst → Inst) : Function :=
  { f with insts := f.insts.modify id g }

/-- An operand with every use of an instruction replaced. -/
def substitute (id : InstId) (replacement op : Operand) : Operand :=
  if op.inst? = some id then replacement else op

/-- Redirect every use of an instruction by a live instruction. -/
def replaceUses (f : Function) (id : InstId) (replacement : Operand) : Function :=
  let live := f.layout
  { f with
    insts := f.insts.mapIdx fun u i =>
      if live.contains u then { i with kind := i.kind.mapOperands (substitute id replacement) }
      else i }

/-- The number of operands of live instructions that name an instruction. -/
def useCount (f : Function) (id : InstId) : Nat :=
  (f.layout.map fun u =>
    match f.kind? u with
    | some k => (k.operands.filter fun op => op.inst? == some id).length
    | none => 0).sum

/-- Take an instruction out of its block and mark it as erased. -/
def erase (f : Function) (id : InstId) : Function :=
  match f.inst? id with
  | none => f
  | some i =>
    { f with
      blocks := f.blocks.modify i.block fun b =>
        { b with insts := b.insts.filter (· != id) }
      insts := f.insts.modify id fun i => { i with erased := true } }

/-- Give a load, store or alloca another alignment; none for other instructions. -/
def setAlign? (f : Function) (id : InstId) (a : Nat) : Option Function := do
  let i ← f.inst? id
  let k ← i.kind.withAlign? a
  pure (f.modifyInst id fun i => { i with kind := k })

/-- The new number of each block if only some are kept. A block beyond the end
of `keep` is not kept. -/
def renumbering (keep : List Bool) (count : Nat) : BlockId → Option BlockId := fun b =>
  if b < count && keep[b]? == some true then some ((keep.take b).count true) else none

/-- Keep only some blocks. The instructions of the others are erased, the
values that they give to phis are dropped, and the blocks that remain are
numbered anew. -/
def retainBlocks (f : Function) (keep : List Bool) : Function :=
  let renumber := renumbering keep f.blocks.length
  let dropped := f.blocks.zipIdx.flatMap fun (b, i) => if (renumber i).isSome then [] else b.insts
  let update (i : Inst) : Inst :=
    { i with
      block := (renumber i.block).getD i.block
      kind := (i.kind.filterIncoming fun b => (renumber b).isSome).mapBlocks fun b =>
        (renumber b).getD b }
  { f with
    blocks := f.blocks.zipIdx.filterMap fun (b, i) => if (renumber i).isSome then some b else none
    insts := f.insts.mapIdx fun id i =>
      let i := if dropped.contains id then { i with erased := true } else i
      if i.erased then i else update i }

end Function

end RangedIR
