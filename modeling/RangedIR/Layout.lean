/-
RangedIR.Layout — sizes, alignments and offsets of types in memory.

A layout text changes single entries of a default layout. Entries are separated
by dashes and give sizes and alignments in bits; alignments are kept in bytes.
Entries that cannot be used are told and passed over.

Sizes and offsets are machine words. They are computed with a function `keep`
that says what is left of a result: `wrap 64` for the words that the program works
with, and the identity for the exact numbers, of which the words are right as long
as no result needs more than sixty-four bits.
-/
import RangedIR.Code.Type
import RangedIR.Text.Digits

namespace RangedIR

open Text

-- powers of the core library
attribute [local instance (high)] instPowNat

/-- How types lie in memory. -/
structure DataLayout where
  /-- Alignments in bytes of integer widths, in ascending order of the widths. -/
  intAligns : List (Nat × Nat)
  floatAlign : Nat
  doubleAlign : Nat
  pointerBits : Nat
  pointerAlign : Nat
  deriving DecidableEq, Repr

namespace DataLayout

/-- Sixty-four bit addresses, and every scalar aligned to its size. -/
def default : DataLayout := ⟨[(1, 1), (8, 1), (16, 2), (32, 4), (64, 8)], 4, 8, 64, 8⟩

instance : Inhabited DataLayout := ⟨default⟩

/-! ## 1. Layout texts -/

/-- Why an entry of a layout text cannot be used. -/
inductive Problem where
  | invalidNumber (number entry : List Char)
  | notBytes (number entry : List Char)
  | floatWidth (width : Nat) (entry : List Char)
  | unrecognized (entry : List Char)
  deriving DecidableEq, Repr

/-- What is said about an entry that cannot be used. -/
def Problem.message : Problem → String
  | invalidNumber n e =>
    "invalid number `" ++ String.ofList n ++ "` in layout entry `" ++ String.ofList e ++ "`"
  | notBytes n e =>
    "alignment `" ++ String.ofList n ++ "` in `" ++ String.ofList e ++ "` is not a byte multiple"
  | floatWidth w e => "unsupported float width " ++ Nat.repr w ++ " in `" ++ String.ofList e ++ "`"
  | unrecognized e => "unrecognized layout entry `" ++ String.ofList e ++ "`"

/-- A number of bits. -/
def bits (entry number : List Char) : Except Problem Nat :=
  match unsigned? (2 ^ (32 : Nat)) number with
  | some n => .ok n
  | none => .error (.invalidNumber number entry)

/-- A positive number of bytes, given in bits. -/
def bytes (entry number : List Char) : Except Problem Nat :=
  match bits entry number with
  | .error p => .error p
  | .ok n => if n = 0 ∨ n % 8 ≠ 0 then .error (.notBytes number entry) else .ok (n / 8)

/-- Set the alignment of a width, keeping the widths in order. -/
def setIntAlign (width align : Nat) : List (Nat × Nat) → List (Nat × Nat)
  | [] => [(width, align)]
  | (w, a) :: rest =>
    if w < width then (w, a) :: setIntAlign width align rest
    else if w = width then (width, align) :: rest
    else (width, align) :: (w, a) :: rest

/-- Whether an entry of this letter has nothing to do with alignments: byte
order, stack, names, native widths and address spaces. -/
def isNeutral (letter : Char) : Bool := "eESmnaAPG".toList.contains letter

/-- A layout and what was wrong with the entry that was applied to it. -/
abbrev Applied := DataLayout × Option Problem

/-- An address entry: a size and an alignment. The size counts even if the
alignment is unusable. -/
def applyPointer (l : DataLayout) (entry size align : List Char) : Applied :=
  match bits entry size with
  | .error p => (l, some p)
  | .ok n =>
    let l := { l with pointerBits := n }
    match bytes entry align with
    | .error p => (l, some p)
    | .ok a => ({ l with pointerAlign := a }, none)

/-- An integer entry: a width and an alignment. -/
def applyInt (l : DataLayout) (entry width align : List Char) : Applied :=
  match bits entry width with
  | .error p => (l, some p)
  | .ok w =>
    match bytes entry align with
    | .error p => (l, some p)
    | .ok a => ({ l with intAligns := setIntAlign w a l.intAligns }, none)

/-- A floating-point entry: a width of 32 or 64 and an alignment. -/
def applyFloat (l : DataLayout) (entry width align : List Char) : Applied :=
  match bits entry width with
  | .error p => (l, some p)
  | .ok w =>
    if w = 32 ∨ w = 64 then
      match bytes entry align with
      | .error p => (l, some p)
      | .ok a => (if w = 32 then { l with floatAlign := a } else { l with doubleAlign := a }, none)
    else (l, some (.floatWidth w entry))

/-- Apply one entry. -/
def applyEntry (l : DataLayout) (entry : List Char) : Applied :=
  match splitAt ':' entry with
  | ('p' :: _) :: size :: align :: _ => l.applyPointer entry size align
  | ('i' :: width) :: align :: _ => l.applyInt entry width align
  | ('f' :: width) :: align :: _ => l.applyFloat entry width align
  | (letter :: _) :: _ => if isNeutral letter then (l, none) else (l, some (.unrecognized entry))
  | _ => (l, some (.unrecognized entry))

/-- Apply entries in order and collect their problems. -/
def applyEntries (l : DataLayout) : List (List Char) → DataLayout × List Problem
  | [] => (l, [])
  | e :: rest =>
    let (l, problem) := l.applyEntry e
    let (l, problems) := applyEntries l rest
    (l, problem.toList ++ problems)

/-- The entries of a layout text. -/
def entriesOf (spec : String) : List (List Char) :=
  (splitAt '-' spec.toList).filter fun e => !e.isEmpty

/-- The layout of a layout text and the problems found in it. -/
def ofText (spec : String) : DataLayout × List Problem := default.applyEntries (entriesOf spec)

/-! ## 2. Alignments and sizes -/

/-- The alignment of an integer width: that of the next listed width, or of the
greatest listed one. -/
def intAlign (l : DataLayout) (width : Nat) : Nat :=
  match l.intAligns.find? (fun (w, _) => width ≤ w) with
  | some (_, a) => a
  | none =>
    match l.intAligns.getLast? with
    | some (_, a) => a
    | none => 1

mutual

/-- The alignment of a type in bytes. -/
def abiAlign (l : DataLayout) : Ty → Nat
  | .void => 1
  | .int width => l.intAlign width
  | .float => l.floatAlign
  | .double => l.doubleAlign
  | .ptr _ => l.pointerAlign
  | .array _ element => l.abiAlign element
  | .struct _ fields => l.fieldsAlign fields

/-- The greatest alignment among fields; one if there are none. -/
def fieldsAlign (l : DataLayout) : List Ty → Nat
  | [] => 1
  | t :: rest => max (l.abiAlign t) (l.fieldsAlign rest)

end

/-- The next multiple of a unit. -/
def roundUp (keep : Nat → Nat) (n unit : Nat) : Nat :=
  if unit = 0 then n else keep ((n + unit - 1) / unit * unit)

/-- Where a field may start at the earliest. -/
def fieldStart (l : DataLayout) (keep : Nat → Nat) (offset : Nat) (t : Ty) : Nat :=
  roundUp keep offset (8 * l.abiAlign t)

mutual

/-- The size of a type in bits, with the padding at its end. -/
def sizeWith (l : DataLayout) (keep : Nat → Nat) : Ty → Nat
  | .void => 0
  | .int width => roundUp keep width (max (8 * l.intAlign width) 8)
  | .float => 32
  | .double => 64
  | .ptr _ => l.pointerBits
  | .array n element => keep (n * l.sizeWith keep element)
  | .struct _ fields => roundUp keep (l.fieldsEnd keep 0 fields) (8 * l.fieldsAlign fields)

/-- Where the last of some fields ends if the first starts at an offset or behind it. -/
def fieldsEnd (l : DataLayout) (keep : Nat → Nat) (offset : Nat) : List Ty → Nat
  | [] => offset
  | t :: rest => l.fieldsEnd keep (keep (l.fieldStart keep offset t + l.sizeWith keep t)) rest

end

/-- The size of a type in bits, as a machine word. -/
def sizeInBits (l : DataLayout) (t : Ty) : Nat := l.sizeWith (wrap 64) t

/-- The size of a type in bits, however large. -/
def exactSize (l : DataLayout) (t : Ty) : Nat := l.sizeWith id t

/-! ## 3. Offsets -/

/-- Where the field with a given number starts. -/
def fieldOffset (l : DataLayout) (keep : Nat → Nat) (offset : Nat) : List Ty → Nat → Option Nat
  | [], _ => none
  | t :: _, 0 => some (l.fieldStart keep offset t)
  | t :: rest, i + 1 => l.fieldOffset keep (keep (l.fieldStart keep offset t + l.sizeWith keep t)) rest i

/-- The bit offset of a field of a structure or of an element of an array. -/
def offsetWith (l : DataLayout) (keep : Nat → Nat) (t : Ty) (index : Nat) : Option Nat :=
  match t with
  | .struct _ fields => l.fieldOffset keep 0 fields index
  | .array n element => if index < n then some (keep (index * l.sizeWith keep element)) else none
  | _ => none

/-- The bit offset of a field or element, as a machine word. -/
def offsetInBits (l : DataLayout) (t : Ty) (index : Nat) : Option Nat := l.offsetWith (wrap 64) t index

end DataLayout

end RangedIR
