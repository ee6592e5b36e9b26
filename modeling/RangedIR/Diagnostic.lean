/-
RangedIR.Diagnostic — what is told about a module.

Diagnostics never stop an analysis; they are collected and written at the end.
-/

namespace RangedIR

/-! ## 1. Codes and levels -/

/-- Stable codes of diagnostics. -/
inductive DiagCode where
  /-- A file cannot be read or written. -/
  | unreadableFile
  /-- The source is no module. -/
  | malformedSource
  /-- A name is not defined, or a module is malformed. -/
  | unresolvedName
  /-- The sensors are not usable. -/
  | invalidSensors
  /-- Both operands are literals. -/
  | literalOperands
  /-- A literal stands on the left of a commutative operation. -/
  | literalOnLeft
  /-- An operand of a bitwise operation may be negative. -/
  | negativeBits
  /-- An operation or a combination of types has no transfer function. -/
  | notModelled
  /-- An integer result may wrap. -/
  | mayWrap
  /-- A declared result range disagrees with the computed one. -/
  | resultOutsideRange
  /-- A narrowing conversion is approximated. -/
  | narrowing
  /-- A call is recursive or too deep. -/
  | callNotFollowed
  /-- The visit budget is used up. -/
  | budgetExhausted
  /-- An entry of the data layout is ignored. -/
  | layoutEntryIgnored
  deriving DecidableEq, Repr, Inhabited

namespace DiagCode

def text : DiagCode → String
  | unreadableFile => "E0001"
  | malformedSource => "E0002"
  | unresolvedName => "E0003"
  | invalidSensors => "E0004"
  | literalOperands => "N0100"
  | literalOnLeft => "N0101"
  | negativeBits => "N0102"
  | notModelled => "N0103"
  | mayWrap => "N0104"
  | resultOutsideRange => "W0200"
  | narrowing => "W0201"
  | callNotFollowed => "W0202"
  | budgetExhausted => "W0203"
  | layoutEntryIgnored => "W0204"

def all : List DiagCode :=
  [unreadableFile, malformedSource, unresolvedName, invalidSensors, literalOperands, literalOnLeft,
    negativeBits, notModelled, mayWrap, resultOutsideRange, narrowing, callNotFollowed,
    budgetExhausted, layoutEntryIgnored]

/-- The code with a given text. -/
def ofText? (s : String) : Option DiagCode := all.find? (·.text == s)

end DiagCode

inductive DiagLevel where
  | note
  | warning
  | error
  deriving DecidableEq, Repr, Inhabited

def DiagLevel.text : DiagLevel → String
  | note => "note"
  | warning => "warning"
  | error => "error"

/-! ## 2. Diagnostics -/

/-- Where in a module a diagnostic applies. -/
structure Location where
  function : String
  value : Option String
  deriving DecidableEq, Repr, Inhabited

def Location.text (l : Location) : String :=
  match l.value with
  | some v => "@" ++ l.function ++ ": " ++ v
  | none => "@" ++ l.function

/-- One link of the chain that led to a diagnostic. -/
structure Cause where
  message : String
  location : Option Location
  deriving DecidableEq, Repr, Inhabited

def Cause.text (c : Cause) : String :=
  match c.location with
  | some l => "\n  caused by: " ++ c.message ++ " (" ++ l.text ++ ")"
  | none => "\n  caused by: " ++ c.message

/-- One thing told about a module. -/
structure Diagnostic where
  code : Option DiagCode
  level : DiagLevel
  location : Option Location
  message : String
  hint : Option String
  causes : List Cause
  deriving DecidableEq, Repr, Inhabited

namespace Diagnostic

/-- A diagnostic with a level, a code, a place and a message. -/
def simple (level : DiagLevel) (code : DiagCode) (location : Option Location) (message : String) :
    Diagnostic :=
  ⟨some code, level, location, message, none, []⟩

/-- An error that concerns no place in particular. -/
def error (code : DiagCode) (message : String) : Diagnostic := simple .error code none message

/-- The text of a diagnostic: one line, then its causes and its hint. -/
def text (d : Diagnostic) : String :=
  let code := match d.code with
    | some c => "[" ++ c.text ++ "]"
    | none => ""
  let place := match d.location with
    | some l => l.text ++ ": "
    | none => ""
  let hint := match d.hint with
    | some h => "\n  hint: " ++ h
    | none => ""
  d.level.text ++ code ++ ": " ++ place ++ d.message ++ String.join (d.causes.map (·.text)) ++ hint

/-- Whether one of the diagnostics is an error. -/
def anyError (ds : List Diagnostic) : Bool := ds.any (·.level == .error)

end Diagnostic

end RangedIR
