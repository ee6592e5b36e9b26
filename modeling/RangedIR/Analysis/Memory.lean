/-
RangedIR.Analysis.Memory — what is known about memory inside one function.

The intervals of memory stand in the same table as those of values; a frame
knows which keys they are. A memory state is a copy of them, taken at the end
of a block and put back at the start of another.
-/
import RangedIR.Analysis.Address
import RangedIR.Analysis.Alias
import RangedIR.Analysis.Bounds

namespace RangedIR

/-! ## 1. States -/

/-- What is known about memory at one point. -/
structure MemoryState where
  slots : Table ValueKey Bound
  unions : Table ValueKey UnionState
  deriving Repr, Inhabited

namespace MemoryState

/-- Nothing is known. -/
def unknown : MemoryState := ⟨.empty, .empty⟩

/-- What holds whichever of two ways was taken: slots known on both, and unions
that hold the same on both. -/
def join (a b : MemoryState) : MemoryState where
  slots := ⟨a.slots.entries.filterMap fun (k, i) => (b.slots.find? k).map fun j => (k, i.hull j)⟩
  unions := a.unions.mapValues fun k s =>
    match b.unions.find? k with
    | some t => if t.agrees s then s else .untyped
    | none => .untyped

/-- What holds whichever of several ways was taken. -/
def joinAll : List MemoryState → Option MemoryState
  | [] => none
  | s :: rest => some (rest.foldl join s)

end MemoryState

/-! ## 2. Frames -/

/-- What is kept while a function is analysed. -/
structure Frame where
  id : FuncId
  function : Function
  predecessors : List (List BlockId)
  aliases : AliasTable
  /-- Slots that an argument was stored to before its range was declared. -/
  pendingArgs : Table ValueKey Nat
  /-- The values returned so far. -/
  returns : List (Option (Operand × Bound))
  /-- Keys whose interval describes memory. -/
  memory : List ValueKey
  /-- Slots whose range was declared. -/
  declared : Table ValueKey Bound
  /-- States at the ends of the blocks that were gone through. -/
  exits : Table BlockId MemoryState
  deriving Inhabited

namespace Frame

/-- The frame at the start of a function. Behind its address parameters there is memory. -/
def start (id : FuncId) (f : Function) : Frame where
  id := id
  function := f
  predecessors := f.predecessors
  aliases := .empty
  pendingArgs := .empty
  returns := []
  memory := f.params.zipIdx.filterMap fun (p, i) => if p.ty.isPointer then some (.arg id i) else none
  declared := .empty
  exits := .empty

def key? (f : Frame) (op : Operand) : Option ValueKey := ValueKey.ofOperand? f.id op

def root? (f : Frame) (op : Operand) : Option (Option ValueKey) := f.function.root? f.id op

def addressRoot (f : Frame) (op : Operand) : Option ValueKey := f.function.addressRoot f.id op

def keyRoot (f : Frame) (key : ValueKey) : Option ValueKey := f.function.keyRoot f.id key

/-- Note that a key describes memory. -/
def addMemory (f : Frame) (key : ValueKey) : Frame :=
  if f.memory.contains key then f else { f with memory := key :: f.memory }

/-- Where a value is in the module. -/
def location (f : Frame) (id : InstId) : Location where
  function := f.function.name
  value := (f.function.inst? id).bind fun i => i.name.map fun n => "%" ++ n

end Frame

/-- Whether a key is a global that may be written. -/
def Module.isMutable (m : Module) : ValueKey → Bool
  | .global g =>
    match m.globals[g]? with
    | some g => !g.isConstant
    | none => false
  | _ => false

/-- The globals that may be written. -/
def Module.mutableGlobals (m : Module) : List ValueKey :=
  ((List.range m.globals.length).map ValueKey.global).filter m.isMutable

/-- The keys of memory in a function: its own, and the globals that may be written. -/
def Frame.memoryKeys (f : Frame) (m : Module) : List ValueKey := f.memory ++ m.mutableGlobals

/-! ## 3. Copies -/

/-- What is known about memory now. -/
def Frame.snapshot (f : Frame) (m : Module) (b : Bounds) : MemoryState where
  slots := .ofList ((f.memoryKeys m).filterMap fun k => (b.get? k).map fun i => (k, i))
  unions := f.aliases.unions

/-- Put back the intervals of a state. -/
def Frame.restoreSlots (f : Frame) (m : Module) (b : Bounds) (s : MemoryState) : Bounds :=
  (f.memoryKeys m).foldl (fun b k => b.set k (s.slots.find? k)) b

/-- Put back the unions of a state. -/
def Frame.restoreUnions (f : Frame) (s : MemoryState) : Frame :=
  { f with aliases := f.aliases.restoreUnions s.unions }

/-- Forget the memory under every key that passes a test, given its object. -/
def Frame.forgetWhere (f : Frame) (m : Module) (b : Bounds)
    (stale : ValueKey → Option ValueKey → Bool) : Bounds :=
  let keys := f.memoryKeys m
  b.filterKeys fun k => !(keys.contains k && stale k (f.keyRoot k))

end RangedIR
