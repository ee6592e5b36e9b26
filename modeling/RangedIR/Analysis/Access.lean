/-
RangedIR.Analysis.Access — instructions that work on memory.

Different objects (allocas, address parameters, globals) are taken not to
overlap.
-/
import RangedIR.Analysis.State
import RangedIR.Analysis.Transfer

namespace RangedIR.State

/-! ## 1. Reading -/

/-- What a read of a type through an address yields. -/
def readAt (s : State) (addr : ValueKey) (ty : Ty) : Option Bound :=
  if s.frame.aliases.isUnion addr then
    (ScalarKind.ofType? ty).bind (s.frame.aliases.read? addr)
  else s.bounds.get? (s.frame.aliases.slot addr)

/-- What a load yields. -/
def load (s : State) (ty : Ty) (ptr : Operand) : Option Bound :=
  (s.frame.key? ptr).bind fun addr => s.readAt addr ty

/-- What the union behind an address yields at the type that the address points at. -/
def readUnion (s : State) (addr : ValueKey) (addrTy : Ty) : Option Bound := do
  let kind ← addrTy.pointee?.bind ScalarKind.ofType?
  s.frame.aliases.read? addr kind

/-! ## 2. Writing -/

/-- Whether an address is known exactly: it is the object itself, or a view or
field of it at a known offset. -/
def isExact (s : State) (root : Option ValueKey) (addr : ValueKey) : Bool :=
  root == some addr || s.frame.aliases.isRegistered addr

/-- Before a write through an address, forget every other slot that it may
overlap. Exact addresses in one object overlap only if they are the same slot;
an inexact one overlaps the whole object, and one of unknown origin everything. -/
def forgetOverlaps (s : State) (m : Module) (ptr : Operand) (addr : ValueKey) : State :=
  let root := s.frame.addressRoot ptr
  let precise := s.isExact root addr
  let written := s.frame.aliases.slot addr
  let forgotten := s.forgetWhere m fun key keyRoot =>
    key != written &&
      match root, keyRoot with
      | some r, some kr => kr == r && !(precise && s.isExact root key)
      | _, _ => true
  if precise then forgotten else forgotten.invalidate root

/-- The argument that a store puts away, and what that says about it: an
argument stored to a slot of declared range has that range; otherwise a later
declaration may still give it one. -/
def storeArgument (s : State) (slot : ValueKey) (index : Nat) : State × Option Bound :=
  match s.frame.declared.find? slot with
  | some i => ({ s with bounds := s.bounds.insert (.arg s.frame.id index) i }, some i)
  | none =>
    ({ s with frame := { s.frame with pendingArgs := s.frame.pendingArgs.insert slot index } }, none)

/-- What a store writes, with what storing it says about an argument. -/
def storedValue (s : State) (slot : ValueKey) (value : Operand) : State × Option Bound :=
  match s.operand? value with
  | some i => (s, some i)
  | none =>
    match value with
    | .arg index => s.storeArgument slot index
    | _ => (s, none)

/-- A store. -/
def store (s : State) (m : Module) (value : Operand) (valueTy : Ty) (ptr : Operand) : State :=
  match s.frame.key? ptr with
  | none => s
  | some addr =>
    let s := s.forgetOverlaps m ptr addr
    let slot := s.frame.aliases.slot addr
    let s := { s with frame := s.frame.addMemory slot }
    let (s, stored) := s.storedValue slot value
    let s := { s with bounds := s.bounds.set slot stored }
    s.withAliases (·.recordWrite addr (ScalarKind.ofType? valueTy) stored)

/-! ## 3. Views and parts -/

/-- An address seen as another type, or a value seen as another type. -/
def view (s : State) (id : InstId) (value : Operand) (src dst : Ty) : State × Option Bound :=
  if src.isPointer then
    match s.frame.key? value with
    | none => (s, none)
    | some target =>
      let key := ValueKey.inst s.frame.id id
      let s := s.withAliases (·.registerView key target)
      let s := { s with frame := s.frame.addMemory key }
      (s, s.readUnion key dst)
  else
    match s.operand? value with
    | none => (s, none)
    | some i =>
      match ScalarKind.ofType? src, ScalarKind.ofType? dst with
      | some k, some k' =>
        if k.bits = k'.bits then (s, i.reinterpret k k')
        else s.conclude id (.refused (.viewNotModelled src dst))
      | _, _ => s.conclude id (.refused (.viewNotModelled src dst))

/-- The first and the last place at which a table of some length is looked up. -/
def lookedUp (length : Nat) (index : Bound) : Option (Nat × Nat) :=
  let lo := Endpoint.greater (Number.ceil index.lo) 0.0
  let hi := Endpoint.lesser (Number.floor index.hi) (Number.ofInt length - 1.0)
  if hi < lo then none else some (Number.toUnsigned64 lo, Number.toUnsigned64 hi)

/-- The part of a list from one place to another. None if there are no such places. -/
def slice? {α : Type} (l : List α) (first last : Nat) : Option (List α) :=
  if first ≤ last + 1 ∧ last < l.length then some ((l.drop first).take (last + 1 - first)) else none

/-- The hull of the elements of a table at the integers of an interval, `some none` if
there are no such elements. None if places are looked up that the table does not have. -/
def elementsAt (elements : List Bound) (index : Bound) : Option (Option Bound) :=
  match lookedUp elements.length index with
  | none => some none
  | some (first, last) => (slice? elements first last).map Interval.hullOf

/-- The element of a constant table that an index path addresses, if it is one. -/
def tableIndex? (s : State) (base : ValueKey) (indices : List (Ty × Operand)) :
    Option (List Bound × Operand) :=
  match s.bounds.elements? base, indices with
  | some elements, [_, (_, index)] => if leadingZero indices then some (elements, index) else none
  | _, _ => none

/-- The address of a part of an object. -/
def elementPtr (s : State) (layout : DataLayout) (id : InstId) (ty source : Ty) (base : Operand)
    (indices : List (Ty × Operand)) : State × Option Bound :=
  match s.frame.key? base with
  | none => (s, none)
  | some baseKey =>
    match s.tableIndex? baseKey indices with
    | some (elements, index) => (s, (s.operand? index).bind fun i => (elementsAt elements i).join)
    | none =>
      let key := ValueKey.inst s.frame.id id
      let s := { s with frame := s.frame.addMemory key }
      match layout.elementOffset source indices with
      | some bits =>
        let s := s.withAliases (·.registerField key baseKey bits)
        if s.frame.aliases.isUnion key then (s, s.readUnion key ty)
        else (s, s.bounds.get? (s.frame.aliases.slot key))
      | none =>
        if indices.length = 1 then (s, s.bounds.get? (s.frame.aliases.slot baseKey)) else (s, none)

/-! ## 4. Bindings of source variables -/

/-- Give the first argument of a binding the range that is declared for its
physical quantity. An argument that was stored to the same slot has it too. -/
def bindVariable (s : State) (dbg : Option DebugBinding) (args : List (Ty × Operand)) : State :=
  match dbg, args with
  | some d, (ty, op) :: _ =>
    match s.frame.key? op, s.bounds.seed? d.ty.baseName with
    | some key, some i =>
      let slot := s.frame.aliases.slot key
      let s := { s with bounds := s.bounds.insert slot i }
      let s :=
        if ty.isPointer then
          let frame := s.frame.addMemory slot
          { s with frame := { frame with declared := frame.declared.insert slot i } }
        else s
      let s :=
        match s.frame.pendingArgs.find? slot with
        | some index =>
          { s with
            bounds := s.bounds.insert (.arg s.frame.id index) i
            frame := { s.frame with pendingArgs := s.frame.pendingArgs.erase slot } }
        | none => s
      s.withAliases (·.recordWrite key (ScalarKind.ofType? (ty.pointee?.getD ty)) (some i))
    | _, _ => s
  | _, _ => s

end RangedIR.State
