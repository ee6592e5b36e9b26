/-
RangedIR.Scope.Checked — values with the faults found on the way.

Resolution goes on behind a fault so that all of them are told together. A
checked value carries a stand-in for what could not be resolved, and the faults
in the order in which they were found.
-/
import RangedIR.Code.Type
import RangedIR.Diagnostic
import RangedIR.Number.Style

namespace RangedIR.Scope

/-! ## 1. Faults -/

/-- What can be wrong with the names of a module. -/
inductive Fault where
  | duplicateType (name : String)
  | duplicateFunction (name : String)
  | duplicateGlobal (name : String)
  | undefinedType (name : String)
  | recursiveType (name : String)
  | floatLiteral (value : Float) (ty : Ty)
  | elementCount (globalName : String) (declared given : Nat)
  | arrayInitializer (globalName : String)
  | duplicateParameter (name : String)
  | noBlocks
  | duplicateLabel (name : String)
  | duplicateValue (name : String)
  | undefinedValue (name : String)
  | undefinedGlobal (name : String)
  | undefinedLabel (name : String)
  | undeclaredCallee (name : String)
  | invalidIndexPath (source : Ty)
  deriving Repr, Inhabited

/-- What is said about a fault. -/
def Fault.message : Fault → String
  | duplicateType n => "duplicate type `%" ++ n ++ "`"
  | duplicateFunction n => "duplicate function `@" ++ n ++ "`"
  | duplicateGlobal n => "duplicate global `@" ++ n ++ "`"
  | undefinedType n => "undefined type `%" ++ n ++ "`"
  | recursiveType n => "recursive type `%" ++ n ++ "`"
  | floatLiteral v t => "float literal " ++ Number.plainText v ++ " used as `" ++ t.text ++ "`"
  | elementCount g declared given =>
    "global `@" ++ g ++ "` declares " ++ Nat.repr declared ++ " elements but has " ++ Nat.repr given
  | arrayInitializer g => "array initializer for non-array global `@" ++ g ++ "`"
  | duplicateParameter n => "duplicate parameter `%" ++ n ++ "`"
  | noBlocks => "function has no blocks"
  | duplicateLabel n => "duplicate block label `" ++ n ++ "`"
  | duplicateValue n => "value `%" ++ n ++ "` defined more than once"
  | undefinedValue n => "undefined value `%" ++ n ++ "`"
  | undefinedGlobal n => "undefined global `@" ++ n ++ "`"
  | undefinedLabel n => "undefined label `%" ++ n ++ "`"
  | undeclaredCallee n => "call to undeclared function `@" ++ n ++ "`"
  | invalidIndexPath t => "invalid getelementptr index path into `" ++ t.text ++ "`"

/-- A fault and the function it was found in. -/
structure Issue where
  function : Option String
  fault : Fault
  deriving Repr, Inhabited

/-- The diagnostic of a fault. -/
def Issue.diagnostic (i : Issue) : Diagnostic :=
  .simple .error .unresolvedName (i.function.map fun f => ⟨f, none⟩) i.fault.message

/-! ## 2. Checked values -/

/-- A value and the issues found while it was resolved. -/
structure Checked (α : Type) where
  value : α
  issues : List Issue

namespace Checked

variable {α β : Type}

/-- A value without issues. -/
def clean (a : α) : Checked α := ⟨a, []⟩

/-- Resolve `a`, then what depends on it. -/
def andThen (a : Checked α) (f : α → Checked β) : Checked β :=
  let b := f a.value
  ⟨b.value, a.issues ++ b.issues⟩

instance : Monad Checked where
  pure := clean
  bind := andThen

/-- Tell a fault. -/
def tell (function : Option String) (fault : Fault) : Checked Unit := ⟨(), [⟨function, fault⟩]⟩

/-- Tell a fault if a test holds. -/
def tellIf (test : Bool) (function : Option String) (fault : Fault) : Checked Unit :=
  if test then tell function fault else clean ()

/-- Tell a fault and go on without a value. -/
def missing (function : Option String) (fault : Fault) : Checked (Option α) :=
  ⟨none, [⟨function, fault⟩]⟩

/-- Resolve each member of a list. -/
def each (f : α → Checked β) : List α → Checked (List β)
  | [] => clean []
  | a :: rest => do
    let b ← f a
    let bs ← each f rest
    pure (b :: bs)

/-- Resolve the members of a list up to the first that has no value. -/
def untilMissing (f : α → Checked (Option β)) : List α → Checked (Option (List β))
  | [] => clean (some [])
  | a :: rest => do
    match ← f a with
    | none => pure none
    | some b =>
      let bs ← untilMissing f rest
      pure (bs.map (b :: ·))

end Checked

end RangedIR.Scope
