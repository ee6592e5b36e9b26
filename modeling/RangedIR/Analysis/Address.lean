/-
RangedIR.Analysis.Address — the objects that addresses point into.
-/
import RangedIR.Analysis.ValueKey
import RangedIR.Layout
import RangedIR.Scope.Body

namespace RangedIR

/-! ## 1. Roots -/

/-- The address that a view or a part is computed from. -/
def Function.next? (f : Function) : Operand → Option Operand
  | .inst i =>
    match f.kind? i with
    | some (.view v src) => if src.isPointer then some v else none
    | some (.elementPtr _ _ base _ _) => some base
    | _ => none
  | _ => none

/-- The object that an address is the start of. -/
def Function.object? (f : Function) (id : FuncId) : Operand → Option ValueKey
  | .inst i =>
    match f.kind? i with
    | some (.alloca ..) => some (.inst id i)
    | _ => none
  | op => ValueKey.ofOperand? id op

/-- What an address points into, following views and parts at most `fuel` times: an
object, or `some none` if its origin is unknown. None if that is not found out. -/
def Function.rootWithin (f : Function) (id : FuncId) : Nat → Operand → Option (Option ValueKey)
  | 0, _ => none
  | fuel + 1, op =>
    match f.next? op with
    | some base => f.rootWithin id fuel base
    | none => some (f.object? id op)

/-- What an address points into: an alloca, a parameter or a global, or `some none` if
the address was loaded, merged or returned by a call. None if an address that it is
computed from is computed from itself: then the search has no end. A search that ends
meets no instruction twice. -/
def Function.root? (f : Function) (id : FuncId) (op : Operand) : Option (Option ValueKey) :=
  f.rootWithin id (f.insts.length + 1) op

/-- The object an address points into, if it has one. An address that is computed from
itself counts as one of unknown origin. -/
def Function.addressRoot (f : Function) (id : FuncId) (op : Operand) : Option ValueKey :=
  (f.root? id op).join

/-- The object that the memory under a key belongs to, as seen from a function. -/
def Function.keyRoot (f : Function) (id : FuncId) (key : ValueKey) : Option ValueKey :=
  match key with
  | .inst g i => if g = id then f.addressRoot id (.inst i) else some key
  | _ => some key

/-! ## 2. Index paths -/

/-- Whether an index path stays in the object it starts at. -/
def leadingZero (indices : List (Ty × Operand)) : Bool :=
  match indices with
  | (_, .const (.int 0)) :: _ => true
  | _ => false

/-- The bit offset of a path of literal indices into a type. -/
def DataLayout.pathOffset (l : DataLayout) (ty : Ty) : List (Ty × Operand) → Option Nat
  | [] => some 0
  | (_, op) :: rest => do
    match ← Scope.literalIndex? op with
    | .ofNat i =>
      let offset ← l.offsetInBits ty i
      let part ← ty.indexInto (some i)
      pure (wrap 64 (offset + (← l.pathOffset part rest)))
    | .negSucc _ => none

/-- The bit offset that literal indices address in the object they start at. -/
def DataLayout.elementOffset (l : DataLayout) (source : Ty) (indices : List (Ty × Operand)) :
    Option Nat :=
  if leadingZero indices then l.pathOffset source (indices.drop 1) else none

end RangedIR
