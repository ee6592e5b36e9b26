/-
RangedIR.Scope.Module — modules with their names resolved.

`resolve` answers a module, or all issues found in its source.
-/
import RangedIR.Scope.Body
import RangedIR.Source.Grammar

namespace RangedIR.Scope

open Source

/-! ## 1. Names of the module -/

/-- Enter the name that an item defines. -/
def declareItem (names : ModuleNames) : Item → Checked ModuleNames
  | .dataLayout _ => .clean names
  | .typeDef t => do
    Checked.tellIf (names.types.contains t.name.name) none (.duplicateType t.name.name)
    pure { names with types := names.types.insert t.name.name t.fields }
  | .globalDef g => do
    Checked.tellIf (names.globals.contains g.name.name) none (.duplicateGlobal g.name.name)
    pure { names with globals := names.globals.insert g.name.name names.globals.size }
  | .declare d => declareCallee d.name.name
  | .define f => declareCallee f.name.name
where
  /-- Declared and defined functions share their names. -/
  declareCallee (name : String) : Checked ModuleNames := do
    Checked.tellIf (names.callees.contains name) none (.duplicateFunction name)
    pure { names with callees := name :: names.callees }

/-- Enter the names that items define. -/
def declareItems : List Item → ModuleNames → Checked ModuleNames
  | [], names => .clean names
  | i :: rest, names => do
    let names ← declareItem names i
    declareItems rest names

/-! ## 2. Entities -/

/-- The first value of a global of a given type. -/
def resolveInit (name : String) (ty : Ty) : GlobalInitExpr → Checked (Option GlobalInit)
  | .scalar lit => do pure ((← resolveLiteral none lit ty).map .scalar)
  | .array lits =>
    match ty with
    | .array n element =>
      if lits.length ≠ n then .missing none (.elementCount name n lits.length)
      else do
        pure ((← Checked.untilMissing (resolveLiteral none · element) lits).map .array)
    | _ => .missing none (.arrayInitializer name)

def resolveGlobal (types : TypeDefs) (g : GlobalDef) : Checked (Option Global) := do
  match ← expandType types g.ty with
  | none => pure none
  | some ty =>
    let init ← resolveInit g.name.name ty g.init
    pure (init.map (⟨g.name.name, g.isConstant, ty, ·⟩))

/-- Add what an item defines to a module. -/
def addItem (names : ModuleNames) (m : Module) : Item → Checked Module
  | .dataLayout s => .clean { m with dataLayout := some s }
  | .typeDef t => do
    let fields ← presentTypes names.types t.fields
    pure { m with types := m.types ++ [⟨t.name.name, fields⟩] }
  | .globalDef g => do
    let g ← resolveGlobal names.types g
    pure { m with globals := m.globals ++ g.toList }
  | .declare d => do
    let ret ← typeOrVoid names.types d.ret
    let params ← presentTypes names.types d.params
    pure { m with declarations := m.declarations ++ [⟨d.name.name, ret, params⟩] }
  | .define f => do
    let f ← resolveFunction names f
    pure { m with functions := m.functions ++ [f] }

/-- Add what items define to a module. -/
def addItems (names : ModuleNames) : List Item → Module → Checked Module
  | [], m => .clean m
  | i :: rest, m => do
    let m ← addItem names m i
    addItems names rest m

/-! ## 3. Modules -/

/-- The module of a list of items and the issues found in it. -/
def checkItems (items : List Item) : Checked Module := do
  let names ← declareItems items ⟨.empty, .empty, []⟩
  addItems names items ⟨none, [], [], [], []⟩

/-- The module of a list of items, if there is no issue. -/
def resolve (items : List Item) : Except (List Issue) Module :=
  let checked := checkItems items
  if checked.issues.isEmpty then .ok checked.value else .error checked.issues

/-- Why a source cannot be loaded. -/
inductive LoadError where
  | malformed (e : SyntaxError)
  | unresolved (issues : List Issue)
  deriving Repr, Inhabited

/-- The module of a source text. -/
def load (source : String) : Except LoadError Module :=
  match readModule source with
  | .error e => .error (.malformed e)
  | .ok items =>
    match resolve items with
    | .error issues => .error (.unresolved issues)
    | .ok m => .ok m

end RangedIR.Scope
