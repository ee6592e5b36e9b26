/-
RangedIR.Code.Type — types of values.

Scalars, addresses and aggregates. A named aggregate keeps its name next to its
fields; it is written by the name alone.
-/

namespace RangedIR

-- powers of the core library
attribute [local instance (high)] instPowNat

/-- What a machine word of so many bits keeps of a number. -/
def wrap (bits n : Nat) : Nat := n % 2 ^ bits

theorem wrap_lt (bits n : Nat) : wrap bits n < 2 ^ bits := Nat.mod_lt n (Nat.two_pow_pos bits)

theorem wrap_of_lt {bits n : Nat} (h : n < 2 ^ bits) : wrap bits n = n := Nat.mod_eq_of_lt h

/-- The type of a value. -/
inductive Ty where
  | void
  | int (bits : Nat)
  | float
  | double
  | ptr (pointee : Ty)
  | array (length : Nat) (element : Ty)
  | struct (name : Option String) (fields : List Ty)
  deriving Repr, Inhabited

namespace Ty

/-! ## 1. Queries -/

def isInteger : Ty → Bool
  | int _ => true
  | _ => false

def isFloating : Ty → Bool
  | float | double => true
  | _ => false

def isPointer : Ty → Bool
  | ptr _ => true
  | _ => false

def isStruct : Ty → Bool
  | struct _ _ => true
  | _ => false

/-- Width of an integer type. -/
def intBits? : Ty → Option Nat
  | int bits => some bits
  | _ => none

/-- The type an address points at. -/
def pointee? : Ty → Option Ty
  | ptr t => some t
  | _ => none

/-- The type reached by one index into an aggregate. Any index enters an array;
a field needs a known, existing number. -/
def indexInto (t : Ty) (index : Option Int) : Option Ty :=
  match t with
  | array _ element => some element
  | struct _ fields =>
    match index with
    | some (.ofNat i) => fields[i]?
    | _ => none
  | _ => none

/-! ## 2. Text -/

mutual

/-- The text of a type. -/
def text : Ty → String
  | void => "void"
  | int bits => "i" ++ Nat.repr bits
  | float => "float"
  | double => "double"
  | ptr t => t.text ++ "*"
  | array n t => "[" ++ Nat.repr n ++ " x " ++ t.text ++ "]"
  | struct (some name) _ => "%" ++ name
  | struct none fields => "\x7b " ++ listText fields ++ " \x7d"

/-- Types separated by commas. -/
def listText : List Ty → String
  | [] => ""
  | [t] => t.text
  | t :: rest => t.text ++ ", " ++ listText rest

end

/-- The fields of an aggregate in braces. -/
def fieldsText (fields : List Ty) : String := "\x7b " ++ listText fields ++ " \x7d"

end Ty

end RangedIR
