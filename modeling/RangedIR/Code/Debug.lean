/-
RangedIR.Code.Debug — source variables that values are bound to.

A source variable has a declared type: the name of a physical quantity, with
any number of wrappers around it.
-/
import RangedIR.Text.Blank

namespace RangedIR

/-- The declared type of a source variable. -/
inductive DebugType where
  | named (name : String)
  | pointer (inner : DebugType)
  | array (inner : DebugType)
  | struct (inner : DebugType)
  deriving DecidableEq, Repr, Inhabited

namespace DebugType

/-! ## 1. Reading -/

/-- A text without a given ending, if it has it. -/
def dropEnding? (ending cs : List Char) : Option (List Char) :=
  if ending.isSuffixOf cs then some (cs.take (cs.length - ending.length)) else none

/-- A text without a given beginning, if it has it. -/
def dropBeginning? (beginning cs : List Char) : Option (List Char) :=
  if beginning.isPrefixOf cs then some (cs.drop beginning.length) else none

/-- The word that opens a structure, and the blank behind it. -/
def structWord : List Char := "struct ".toList

/-- Read a declared type with at most `fuel` wrappers: `T*`, `T[]` and
`struct T`, tried in this order, with white space around it. -/
def ofChars : Nat → List Char → DebugType
  | 0, cs => named (String.ofList (Text.trim cs))
  | fuel + 1, cs =>
    let t := Text.trim cs
    match dropEnding? ['*'] t with
    | some inner => pointer (ofChars fuel inner)
    | none =>
      match dropEnding? ['[', ']'] t with
      | some inner => array (ofChars fuel inner)
      | none =>
        match dropBeginning? structWord t with
        | some inner => struct (ofChars fuel inner)
        | none => named (String.ofList t)

/-- Read a declared type. A wrapper takes at least one character. -/
def ofText (s : String) : DebugType := ofChars s.toList.length s.toList

/-! ## 2. Queries and text -/

/-- The physical quantity inside the wrappers. -/
def baseName : DebugType → String
  | named n => n
  | pointer t | array t | struct t => t.baseName

/-- The text of a declared type. -/
def text : DebugType → String
  | named n => n
  | pointer t => t.text ++ "*"
  | array t => t.text ++ "[]"
  | struct t => "struct " ++ t.text

end DebugType

/-- A source variable: its name and its declared type. -/
structure DebugBinding where
  sourceName : String
  ty : DebugType
  deriving DecidableEq, Repr, Inhabited

/-- The note that binds an instruction to a source variable. -/
def DebugBinding.text (b : DebugBinding) : String :=
  " !dbg(\"" ++ b.sourceName ++ "\", \"" ++ b.ty.text ++ "\")"

end RangedIR
