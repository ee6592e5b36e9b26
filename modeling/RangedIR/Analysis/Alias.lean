/-
RangedIR.Analysis.Alias — addresses that name the same memory.

Every address has a root and a bit offset in it. Fields at the same place share
one slot. A root that is seen as more than one type is a union: it remembers
its last write, and a read is answered from the bits of that write.
-/
import RangedIR.Analysis.ValueKey
import RangedIR.Interval.Lane
import RangedIR.Table

namespace RangedIR

-- powers of the core library
attribute [local instance (high)] instPowNat

/-- What a union holds. -/
inductive UnionState where
  | untyped
  | typed (kind : ScalarKind) (offset : Nat) (value : Bound)
  deriving Repr, DecidableEq, Inhabited

/-- Whether two unions hold the same, numbers compared as numbers. -/
def UnionState.agrees : UnionState → UnionState → Bool
  | untyped, untyped => true
  | typed k o a, typed k' o' a' => decide (k = k') && o == o' && a.sameEnds a'
  | _, _ => false

/-- An address as a root and a bit offset, which is a machine word. -/
abbrev Place := ValueKey × Nat

/-- What is known about addresses. -/
structure AliasTable where
  /-- Places of views and fields. -/
  places : Table ValueKey Place
  /-- States of the unions, by root. -/
  unions : Table ValueKey UnionState
  /-- The key that stands for a place. -/
  slots : Table Place ValueKey
  deriving Repr, Inhabited

namespace AliasTable

def empty : AliasTable := ⟨.empty, .empty, .empty⟩

/-! ## 1. Places -/

/-- The place of an address. An address never entered is a root. -/
def locate (t : AliasTable) (addr : ValueKey) : Place := (t.places.find? addr).getD (addr, 0)

/-- Whether an address was entered as a view or a field. -/
def isRegistered (t : AliasTable) (addr : ValueKey) : Bool := t.places.contains addr

/-- The key under which the value at an address is kept. -/
def slot (t : AliasTable) (addr : ValueKey) : ValueKey :=
  match t.places.find? addr with
  | some place => (t.slots.find? place).getD addr
  | none => addr

/-- Enter an address as a view of another. Its root becomes a union. -/
def registerView (t : AliasTable) (view target : ValueKey) : AliasTable :=
  let place := t.locate target
  { t with
    places := t.places.insert view place
    unions := if t.unions.contains place.1 then t.unions else t.unions.insert place.1 .untyped }

/-- Enter an address as lying behind another by some bits. -/
def registerField (t : AliasTable) (field base : ValueKey) (bits : Nat) : AliasTable :=
  let (root, offset) := t.locate base
  let place := (root, wrap 64 (offset + bits))
  let first := if place.2 = 0 then root else field
  { t with
    places := t.places.insert field place
    slots := if t.slots.contains place then t.slots else t.slots.insert place first }

/-! ## 2. Unions -/

def isUnion (t : AliasTable) (addr : ValueKey) : Bool := t.unions.contains (t.locate addr).1

/-- What the union at an address holds. -/
def state? (t : AliasTable) (addr : ValueKey) : Option UnionState := t.unions.find? (t.locate addr).1

/-- A write through an address. Without a kind or an interval the union holds
nothing known. -/
def recordWrite (t : AliasTable) (addr : ValueKey) (kind : Option ScalarKind) (value : Option Bound) :
    AliasTable :=
  let (root, offset) := t.locate addr
  if t.unions.contains root then
    let state := match kind, value with
      | some k, some i => .typed k offset i
      | _, _ => .untyped
    { t with unions := t.unions.insert root state }
  else t

/-- Forget what the union at an address holds. -/
def invalidate (t : AliasTable) (addr : ValueKey) : AliasTable := t.recordWrite addr none none

/-- Forget what the unions hold whose root passes a test. -/
def invalidateWhere (t : AliasTable) (test : ValueKey → Bool) : AliasTable :=
  { t with unions := t.unions.mapValues fun root s => if test root then .untyped else s }

/-- Forget what all unions hold. -/
def invalidateAll (t : AliasTable) : AliasTable := t.invalidateWhere fun _ => true

/-- Set every union to what it held before; those that are not in `saved` hold
nothing known. -/
def restoreUnions (t : AliasTable) (saved : Table ValueKey UnionState) : AliasTable :=
  { t with unions := t.unions.mapValues fun root _ => saved.getD root .untyped }

/-- A read through an address, answered from the last write of its union. The
bits read have to be among the bits written, and are counted from there with
thirty-two bits. -/
def read? (t : AliasTable) (addr : ValueKey) (kind : ScalarKind) : Option Bound :=
  let (root, offset) := t.locate addr
  match t.unions.find? root with
  | none | some .untyped => none
  | some (.typed written start value) =>
    if offset < start then none
    else if written = kind && offset == start then some value
    else if 2 ^ (32 : Nat) ≤ offset - start then none
    else value.lane written (offset - start) kind

/-- Whether a read of some bits behind the start of the last write asks for a sum that
thirty-two bits do not hold. A build that checks its sums stops there. -/
def readOverflows (t : AliasTable) (addr : ValueKey) (kind : ScalarKind) : Bool :=
  match t.state? addr with
  | some (.typed _ start _) =>
    let behind := (t.locate addr).2 - start
    behind < 2 ^ (32 : Nat) && 2 ^ (32 : Nat) ≤ behind + kind.bits
  | _ => false

end AliasTable

end RangedIR
