/-
RangedIR.Analysis.Effects — what a loop may write.

A loop is entered before its body has been gone through, so its header starts
without everything that the body may write.
-/
import RangedIR.Analysis.Memory
import RangedIR.Analysis.Routine

namespace RangedIR

/-- What a piece of code may write. -/
structure Effects where
  /-- Objects that may be written. -/
  roots : List ValueKey
  /-- Whether globals may be written. -/
  globals : Bool
  /-- Whether anything may be written. -/
  everything : Bool
  deriving Repr, DecidableEq, Inhabited

namespace Effects

/-- Writes into some objects; where one is unknown, anything may be written. -/
def ofRoots (roots : List (Option ValueKey)) (globals : Bool) : Effects where
  roots := roots.filterMap id
  globals := globals
  everything := roots.contains none

/-- Whether an object may be written. -/
def hits (e : Effects) (m : Module) (root : ValueKey) : Bool :=
  e.roots.contains root || (e.globals && m.isMutable root)

end Effects

/-- Whether a call may write: the function is defined, or is not known as a numeric
routine. A binding of a source variable is no such call. -/
def Module.callWrites (m : Module) (callee : String) : Bool :=
  !Scope.isDebugName callee && ((m.functionNamed? callee).isSome || (Routine.ofName? callee).isNone)

namespace InstKind

/-- The addresses that an instruction may write through: a binding of a source variable
writes its address, and a call that may write whatever its arguments point into. -/
def written (m : Module) : InstKind → List Operand
  | .store _ _ ptr _ _ => [ptr]
  | .call callee args =>
    if Scope.isDebugName callee then
      match args with
      | (.ptr _, op) :: _ => [op]
      | _ => []
    else if m.callWrites callee then (args.filter fun (ty, _) => ty.isPointer).map fun (_, op) => op
    else []
  | _ => []

/-- Whether an instruction may write the globals. -/
def writesGlobals (m : Module) : InstKind → Bool
  | .call callee _ => m.callWrites callee
  | _ => false

end InstKind

namespace Frame

/-- The blocks from which a latch is reached without passing the header, and the
header. Every edge is followed at most once, backwards. -/
def loopBody (f : Frame) (header : BlockId) (latches : List BlockId) : List BlockId :=
  Function.visitBlocks (fun b => f.predecessors[b]?.getD []) (fun _ => true)
    (latches.length + f.predecessors.flatten.length) latches [header]

/-- What the loop of a header and its latches may write, `some none` if the latches can
be reached around the header. None if the search for what an address points into has
no end. -/
def loopEffects (f : Frame) (m : Module) (header : BlockId) (latches : List BlockId) :
    Option (Option Effects) :=
  let around := f.function.reachableBlocks (some header)
  if latches.any around.contains then some none
  else
    let body := f.loopBody header latches
    let blocks := f.function.blocks.zipIdx.filter fun (_, b) => body.contains b
    let kinds := blocks.flatMap fun (b, _) => b.insts.filterMap f.function.kind?
    let written := kinds.flatMap (·.written m)
    if written.any fun op => (f.root? op).isNone then none
    else some (some (.ofRoots (written.filterMap f.root?) (kinds.any (·.writesGlobals m))))

/-- A state without what may be written. -/
def havoc (f : Frame) (m : Module) (s : MemoryState) (e : Effects) : MemoryState :=
  if e.everything then .unknown
  else {
    slots := s.slots.filter fun k _ =>
      match f.keyRoot k with
      | some r => !e.hits m r
      | none => false
    unions := s.unions.mapValues fun r u => if e.hits m r then .untyped else u }

end Frame

end RangedIR
