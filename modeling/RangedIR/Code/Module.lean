/-
RangedIR.Code.Module — modules: named types, globals, declarations, functions.
-/
import RangedIR.Code.Function

namespace RangedIR

-- sums start from the zero of the core library
attribute [local instance (high)] Zero.ofOfNat0

/-- The first value of a global. -/
inductive GlobalInit where
  | scalar (value : Constant)
  | array (values : List Constant)
  deriving DecidableEq, Repr, Inhabited

/-- A variable or constant of a module. -/
structure Global where
  name : String
  isConstant : Bool
  ty : Ty
  init : GlobalInit
  deriving Repr, Inhabited

/-- A function that is defined elsewhere. -/
structure Declaration where
  name : String
  retTy : Ty
  params : List Ty
  deriving Repr, Inhabited

/-- A named aggregate type. -/
structure NamedType where
  name : String
  fields : List Ty
  deriving Repr, Inhabited

/-- A module whose names have been resolved. -/
structure Module where
  dataLayout : Option String
  types : List NamedType
  globals : List Global
  declarations : List Declaration
  functions : List Function
  deriving Repr, Inhabited

namespace Module

/-- The number of the function with a given name. -/
def functionNamed? (m : Module) (name : String) : Option FuncId :=
  m.functions.findIdx? (·.name == name)

/-- The declaration with a given name. -/
def declaration? (m : Module) (name : String) : Option Declaration :=
  m.declarations.find? (·.name == name)

/-- The number of live instructions. -/
def instCount (m : Module) : Nat := (m.functions.map (·.layout.length)).sum

/-- Replace the function with a given number. -/
def setFunction (m : Module) (id : FuncId) (f : Function) : Module :=
  { m with functions := m.functions.set id f }

end Module

end RangedIR
