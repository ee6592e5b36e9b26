/-
RangedIR.Proofs.Scope.WellScoped — sources whose names are in scope.

What a source has to satisfy for its names to stand for something, said of the source alone:
no tables, no numbers and no order of passes. A name may be used before it is defined, so a
source is looked at as a whole.
-/
import Mathlib.Logic.Relation
import Mathlib.Tactic.MkIffOfInductiveProp
import RangedIR.Proofs.Scope.Module

namespace RangedIR.Source

open Scope Relation

/-! ## 1. Types -/

/-- A name stands somewhere in a type, also behind an address. -/
inductive Mentions : TypeExpr → Ident → Prop
  | named (n : Ident) : Mentions (.named n) n
  | ptr {t : TypeExpr} {n : Ident} : Mentions t n → Mentions (.ptr t) n
  | array {length : Nat} {t : TypeExpr} {n : Ident} : Mentions t n → Mentions (.array length t) n
  | struct {fields : List TypeExpr} {t : TypeExpr} {n : Ident} :
    t ∈ fields → Mentions t n → Mentions (.struct fields) n

section

-- the fields that a name of a type is defined to have
variable (defines : String → List TypeExpr → Prop)

/-- The definition of the first name has the second one in it. -/
def Expands (x y : String) : Prop := ∃ fields, defines x fields ∧ ∃ t ∈ fields, ∃ n, Mentions t n ∧ n.name = y

/-- The name is defined, and its expansion does not come back to it. -/
structure Grounded (x : String) : Prop where
  defined : ∃ fields, defines x fields
  acyclic : ¬ TransGen (Expands defines) x x

/-- A path of indices leads into a type. Any index enters an array, a field needs a known one. -/
inductive Leads : TypeExpr → List (Option Int) → Prop
  | done (t : TypeExpr) : Leads t []
  | array {length : Nat} {t : TypeExpr} {i : Option Int} {path : List (Option Int)} :
    Leads t path → Leads (.array length t) (i :: path)
  | struct {fields : List TypeExpr} {k : Nat} {t : TypeExpr} {path : List (Option Int)} :
    fields[k]? = some t → Leads t path → Leads (.struct fields) (some k :: path)
  | named {n : Ident} {fields : List TypeExpr} {path : List (Option Int)} :
    defines n.name fields → Leads (.struct fields) path → Leads (.named n) path

end

def TypeExpr.isFloating : TypeExpr → Bool
  | float | double => true
  | _ => false

/-- Numbers with a fraction need a type that has such numbers. -/
def Literal.AllowedAt (t : TypeExpr) : Literal → Prop
  | float _ => t.isFloating = true
  | _ => True

/-! ## 2. Instructions -/

namespace InstExpr

/-- The types that are written in an instruction. -/
def types : InstExpr → List TypeExpr
  | binary _ ty _ _ | fneg ty _ | alloca ty _ | icmp _ ty _ _ | fcmp _ ty _ _ | phi ty _ => [ty]
  | cast _ src _ dst | bitcast src _ dst => [src, dst]
  | load ty ptr _ => [ty, ptr.ty]
  | store v ptr _ => [v.ty, ptr.ty]
  | elementPtr _ source base indices => source :: base.ty :: indices.map (·.ty)
  | call result _ args => result :: args.map (·.ty)
  | ret v => v.toList.map (·.ty)
  | br _ | condBr .. => []

/-- The values of an instruction in the order in which they are written, each at its type. -/
def uses : InstExpr → List Typed
  | binary _ ty lhs rhs | icmp _ ty lhs rhs | fcmp _ ty lhs rhs => [⟨ty, lhs⟩, ⟨ty, rhs⟩]
  | fneg ty v | cast _ ty v _ | bitcast ty v _ => [⟨ty, v⟩]
  | alloca .. | br _ => []
  | load _ ptr _ => [ptr]
  | store v ptr _ => [v, ptr]
  | elementPtr _ _ base indices => base :: indices
  | call _ _ args => args
  | ret v => v.toList
  | condBr c _ _ => [⟨.int 1, c⟩]
  | phi ty incoming => incoming.map fun i => ⟨ty, i.1⟩

/-- The labels of an instruction in the order in which they are written. -/
def labels : InstExpr → List Ident
  | br target => [target]
  | condBr _ thenLabel elseLabel => [thenLabel, elseLabel]
  | phi _ incoming => incoming.map (·.2)
  | _ => []

def callee? : InstExpr → Option Ident
  | call _ callee _ => some callee
  | _ => none

end InstExpr

/-- The number that an index is known to be. At a type of truth values or of numbers with a
fraction, a number is not an index. -/
def Typed.index? (t : Typed) : Option Int :=
  match t.value with
  | .lit (.int i) =>
    match t.ty with
    | .float | .double | .int 1 => none
    | _ => some i
  | _ => none

/-- The type that an instruction goes into, and its way. The first index steps over whole
objects. -/
def InstExpr.path? : InstExpr → Option (TypeExpr × List (Option Int))
  | elementPtr _ source _ indices => some (source, (indices.drop 1).map Typed.index?)
  | _ => none

/-! ## 3. Functions -/

namespace FunctionDef

def insts (d : FunctionDef) : List InstDef := d.blocks.flatMap (·.insts)

/-- The names of parameters and results. -/
def valueNames (d : FunctionDef) : List String := d.params.map (·.2.name) ++ d.insts.filterMap resultName?

def labelNames (d : FunctionDef) : List String := d.blocks.map (·.label.name)

/-- The types that are written in a function. -/
def types (d : FunctionDef) : List TypeExpr := d.ret :: d.params.map (·.1) ++ d.insts.flatMap (·.kind.types)

end FunctionDef

section

variable (items : List Item)

/-- Items define a name of a type. -/
def Defines (x : String) (fields : List TypeExpr) : Prop := ∃ t ∈ items.filterMap typeDef?, t.name.name = x ∧ t.fields = fields

/-- A value that a function of these items may use. -/
def Typed.InScope (d : FunctionDef) (t : Typed) : Prop :=
  match t.value with
  | .loc x => x.name ∈ d.valueNames
  | .glob g => g.name ∈ items.filterMap globalName?
  | .lit l => l.AllowedAt t.ty
  | .undef => True

/-- An instruction of a function of these items refers to what is there. -/
@[mk_iff] structure InstExpr.InScope (d : FunctionDef) (e : InstExpr) : Prop where
  uses : ∀ t ∈ e.uses, t.InScope items d
  labels : ∀ l ∈ e.labels, l.name ∈ d.labelNames
  callee : ∀ c ∈ e.callee?, c.name ∈ items.filterMap Scope.callee? ∨ "llvm.dbg.".isPrefixOf c.name = true
  path : ∀ source path, e.path? = some (source, path) → Leads (Defines items) source path

structure FunctionDef.WellScoped (d : FunctionDef) : Prop where
  blocks : d.blocks ≠ []
  labels : d.labelNames.Nodup
  values : d.valueNames.Nodup
  insts : ∀ i ∈ d.insts, i.kind.InScope items d

end

/-! ## 4. Sources -/

/-- The literals of a first value are allowed, and there are as many as the type says. -/
def GlobalInitExpr.Fits (t : TypeExpr) : GlobalInitExpr → Prop
  | scalar l => l.AllowedAt t
  | array ls => ∃ element, t = .array ls.length element ∧ ∀ l ∈ ls, l.AllowedAt element

/-- The types that are written in an item. -/
def Item.types : Item → List TypeExpr
  | dataLayout _ => []
  | typeDef t => t.fields
  | globalDef g => [g.ty]
  | declare d => d.ret :: d.params
  | define d => d.types

/-- A source whose names are distinct and in scope. -/
structure WellScoped (items : List Item) : Prop where
  typeNames : ((items.filterMap typeDef?).map (·.name.name)).Nodup
  globalNames : (items.filterMap globalName?).Nodup
  callees : (items.filterMap Scope.callee?).Nodup
  types : ∀ i ∈ items, ∀ t ∈ i.types, ∀ n, Mentions t n → Grounded (Defines items) n.name
  inits : ∀ g, .globalDef g ∈ items → g.init.Fits g.ty
  functions : ∀ d, .define d ∈ items → d.WellScoped items

end RangedIR.Source
