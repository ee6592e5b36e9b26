/-
RangedIR.Scope.Types — the types that type expressions stand for.

A named type is its definition's fields, expanded, under its name. A name met
again while it is being expanded is a fault, also behind an address.
-/
import RangedIR.Scope.Checked
import RangedIR.Source.Tree
import RangedIR.Table

namespace RangedIR.Scope

open Source

/-- Definitions of named types. -/
abbrev TypeDefs := Table String (List TypeExpr)

variable {m : Type → Type} [Monad m]

mutual

/-- Expand a type expression, given what names stand for. -/
def expandWith (named : Ident → m (Option Ty)) : TypeExpr → m (Option Ty)
  | .void => pure (some .void)
  | .int bits => pure (some (.int bits))
  | .float => pure (some .float)
  | .double => pure (some .double)
  | .named n => named n
  | .ptr t => do pure ((← expandWith named t).map .ptr)
  | .array n t => do pure ((← expandWith named t).map (.array n))
  | .struct fields => do pure ((← expandAllWith named fields).map (.struct none))

/-- Expand type expressions up to the first that has no type. -/
def expandAllWith (named : Ident → m (Option Ty)) : List TypeExpr → m (Option (List Ty))
  | [] => pure (some [])
  | t :: rest => do
    match ← expandWith named t with
    | none => pure none
    | some ty => pure ((← expandAllWith named rest).map (ty :: ·))

end

/-- Expand a name inside the expansion of others. -/
def expandName (defs : TypeDefs) : Nat → List String → Ident → Checked (Option Ty)
  | 0, _, n => .missing none (.recursiveType n.name)
  | fuel + 1, expanding, n =>
    match defs.find? n.name with
    | none => .missing none (.undefinedType n.name)
    | some fields =>
      if expanding.contains n.name then .missing none (.recursiveType n.name)
      else do
        let tys ← expandAllWith (expandName defs fuel (n.name :: expanding)) fields
        pure (tys.map (.struct (some n.name)))

/-- The type of an expression. Names that are being expanded are defined and
distinct, so the number of definitions bounds their number. -/
def expandType (defs : TypeDefs) (t : TypeExpr) : Checked (Option Ty) :=
  expandWith (expandName defs (defs.size + 1) []) t

/-- The type of an expression, with `void` standing in for a missing one. -/
def typeOrVoid (defs : TypeDefs) (t : TypeExpr) : Checked Ty := do
  pure ((← expandType defs t).getD .void)

/-- The types of expressions; those that are missing are left out. -/
def presentTypes (defs : TypeDefs) (ts : List TypeExpr) : Checked (List Ty) := do
  pure ((← Checked.each (expandType defs) ts).filterMap id)

end RangedIR.Scope
