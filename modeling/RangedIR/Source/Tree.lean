/-
RangedIR.Source.Tree — module text as a tree.

Names are still texts here and carry the place where they stand.
-/
import RangedIR.Opcode
import RangedIR.Source.Token

namespace RangedIR.Source

/-- A name and where it stands. -/
structure Ident where
  name : String
  span : Span
  deriving DecidableEq, Repr, Inhabited

/-! ## 1. Types, literals and values -/

/-- A type as written. -/
inductive TypeExpr where
  | void
  | int (bits : Nat)
  | float
  | double
  | named (name : Ident)
  | ptr (pointee : TypeExpr)
  | array (length : Nat) (element : TypeExpr)
  | struct (fields : List TypeExpr)
  deriving Repr, Inhabited

inductive Literal where
  | int (value : Int)
  | float (value : Float)
  | bool (value : Bool)
  deriving DecidableEq, Repr, Inhabited

inductive ValueExpr where
  | loc (name : Ident)
  | glob (name : Ident)
  | lit (value : Literal)
  | undef
  deriving DecidableEq, Repr, Inhabited

/-- A value with its type. -/
structure Typed where
  ty : TypeExpr
  value : ValueExpr
  deriving Repr, Inhabited

/-! ## 2. Instructions -/

inductive InstExpr where
  | binary (op : BinaryOp) (ty : TypeExpr) (lhs rhs : ValueExpr)
  | fneg (ty : TypeExpr) (value : ValueExpr)
  | cast (op : CastOp) (src : TypeExpr) (value : ValueExpr) (dst : TypeExpr)
  | bitcast (src : TypeExpr) (value : ValueExpr) (dst : TypeExpr)
  | alloca (ty : TypeExpr) (align : Option Nat)
  | load (ty : TypeExpr) (ptr : Typed) (align : Option Nat)
  | store (value ptr : Typed) (align : Option Nat)
  | elementPtr (inbounds : Bool) (source : TypeExpr) (base : Typed) (indices : List Typed)
  | call (ret : TypeExpr) (callee : Ident) (args : List Typed)
  | ret (value : Option Typed)
  | icmp (pred : IntPredicate) (ty : TypeExpr) (lhs rhs : ValueExpr)
  | fcmp (pred : FloatPredicate) (ty : TypeExpr) (lhs rhs : ValueExpr)
  | br (target : Ident)
  | condBr (cond : ValueExpr) (thenLabel elseLabel : Ident)
  | phi (ty : TypeExpr) (incoming : List (ValueExpr × Ident))
  deriving Repr, Inhabited

/-- The word that writes an instruction; a conditional branch has its own. -/
def InstExpr.keyword : InstExpr → String
  | binary op .. => op.name
  | fneg .. => "fneg"
  | cast op .. => op.name
  | bitcast .. => "bitcast"
  | alloca .. => "alloca"
  | load .. => "load"
  | store .. => "store"
  | elementPtr .. => "getelementptr"
  | call .. => "call"
  | ret .. => "ret"
  | icmp .. => "icmp"
  | fcmp .. => "fcmp"
  | br .. => "br"
  | condBr .. => "condbr"
  | phi .. => "phi"

/-- An instruction, with the source variable it is bound to. -/
structure InstDef where
  result : Option Ident
  kind : InstExpr
  /-- Name and declared type of the source variable. -/
  dbg : Option (String × String)
  span : Span
  deriving Repr, Inhabited

structure BlockDef where
  label : Ident
  insts : List InstDef
  deriving Repr, Inhabited

/-! ## 3. Items -/

structure TypeDef where
  name : Ident
  fields : List TypeExpr
  deriving Repr, Inhabited

inductive GlobalInitExpr where
  | scalar (value : Literal)
  | array (values : List Literal)
  deriving Repr, Inhabited

structure GlobalDef where
  name : Ident
  isConstant : Bool
  ty : TypeExpr
  init : GlobalInitExpr
  deriving Repr, Inhabited

structure DeclareDef where
  name : Ident
  ret : TypeExpr
  params : List TypeExpr
  deriving Repr, Inhabited

structure FunctionDef where
  name : Ident
  ret : TypeExpr
  params : List (TypeExpr × Ident)
  range : Option String
  blocks : List BlockDef
  span : Span
  deriving Repr, Inhabited

inductive Item where
  | dataLayout (text : String)
  | typeDef (t : TypeDef)
  | globalDef (g : GlobalDef)
  | declare (d : DeclareDef)
  | define (f : FunctionDef)
  deriving Repr, Inhabited

end RangedIR.Source
