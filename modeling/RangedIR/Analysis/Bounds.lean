/-
RangedIR.Analysis.Bounds — the intervals known in one scope.

A scope has intervals of values, intervals of the elements of constant tables,
the declared ranges of physical quantities, and the scopes of the calls that
were followed from it.
-/
import RangedIR.Analysis.ValueKey
import RangedIR.Interval.Basic
import RangedIR.Table

namespace RangedIR

/-- Declared ranges of physical quantities. -/
abbrev SeedTable := Table String Bound

/-- What is known in one scope. -/
structure Bounds where
  /-- Intervals of values. -/
  ranges : Table ValueKey Bound
  /-- Intervals of the elements of constant tables. -/
  elements : Table ValueKey (List Bound)
  /-- Declared ranges of physical quantities. -/
  seeds : SeedTable
  /-- Scopes of the calls, by the name of the call site. -/
  sites : Table String Bounds
  deriving Inhabited

namespace Bounds

/-- A scope in which only the declared ranges are known. -/
def ofSeeds (seeds : SeedTable) : Bounds := ⟨.empty, .empty, seeds, .empty⟩

/-! ## 1. Entries -/

def get? (b : Bounds) (key : ValueKey) : Option Bound := b.ranges.find? key

def insert (b : Bounds) (key : ValueKey) (i : Bound) : Bounds :=
  { b with ranges := b.ranges.insert key i }

def erase (b : Bounds) (key : ValueKey) : Bounds := { b with ranges := b.ranges.erase key }

/-- Record an interval, or forget the entry if there is none. -/
def set (b : Bounds) (key : ValueKey) (i : Option Bound) : Bounds :=
  { b with ranges := b.ranges.set key i }

def contains (b : Bounds) (key : ValueKey) : Bool := b.ranges.contains key

def size (b : Bounds) : Nat := b.ranges.size

/-- Keep only the entries of keys that pass a test. -/
def filterKeys (b : Bounds) (keep : ValueKey → Bool) : Bounds :=
  { b with ranges := b.ranges.filter fun k _ => keep k }

/-- The interval of an operand in a function. A literal is a single number. -/
def operand? (b : Bounds) (f : FuncId) (op : Operand) : Option Bound :=
  match op with
  | .const c => some (.singleton c.value)
  | op => (ValueKey.ofOperand? f op).bind b.get?

/-- The declared range of a physical quantity. -/
def seed? (b : Bounds) (name : String) : Option Bound := b.seeds.find? name

def elements? (b : Bounds) (key : ValueKey) : Option (List Bound) := b.elements.find? key

def insertElements (b : Bounds) (key : ValueKey) (is : List Bound) : Bounds :=
  { b with elements := b.elements.insert key is }

/-! ## 2. Scopes of calls -/

/-- A scope for the body of a called function: what is known of the module and
nothing of any function. -/
def child (b : Bounds) : Bounds :=
  { b with ranges := b.ranges.filter fun k _ => k.isGlobal, sites := .empty }

/-- Enter one fact of a called function. A fact about the module replaces what
was known; a fact about a function's own value covers every call. -/
def mergeEntry (ranges : Table ValueKey Bound) (key : ValueKey) (i : Bound) : Table ValueKey Bound :=
  if key.isGlobal then ranges.insert key i
  else
    match ranges.find? key with
    | some known => ranges.insert key (known.hull i)
    | none => ranges.insert key i

/-- Take over what is known at the end of a called function. Facts about the
module that it has lost are lost here too. -/
def mergeChild (b child : Bounds) : Bounds :=
  let kept := b.ranges.filter fun k _ => !k.isGlobal || child.contains k
  { b with
    ranges := child.ranges.keys.foldl (fun t k => (child.get? k).elim t (mergeEntry t k)) kept
    sites := child.sites.entries.foldl
      (fun t (name, s) => if t.contains name then t else t.insert name s) b.sites }

/-- Keep the scope of a call. -/
def recordSite (b : Bounds) (site : String) (scope : Bounds) : Bounds :=
  { b with sites := b.sites.insert site scope }

/-! ## 3. Signatures -/

/-- What is known of the module, by bit patterns, in the order of the globals. -/
def globalSignature (b : Bounds) : List (GlobalId × UInt64 × UInt64) :=
  (b.ranges.entries.filterMap fun (k, i) =>
    match k with
    | .global g => some (g, i.lo.toBits, i.hi.toBits)
    | _ => none).mergeSort fun a b => a.1 ≤ b.1

end Bounds

end RangedIR
