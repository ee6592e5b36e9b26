/-
RangedIR.Code.Instruction — instructions and their operands.

Instructions are numbered within their function, and an operand names the
instruction that computes it. Numbers stay the same for as long as the function
lives, so tables of facts about values can use them as keys.
-/
import RangedIR.Code.Constant
import RangedIR.Code.Debug
import RangedIR.Opcode

namespace RangedIR

/-- The number of a function in its module. -/
abbrev FuncId := Nat

/-- The number of an instruction in its function. -/
abbrev InstId := Nat

/-- The number of a block in its function. -/
abbrev BlockId := Nat

/-- The number of a global in its module. -/
abbrev GlobalId := Nat

/-! ## 1. Operands -/

/-- What an instruction works on. -/
inductive Operand where
  | inst (id : InstId)
  | arg (index : Nat)
  | global (id : GlobalId)
  | const (value : Constant)
  | undef
  deriving DecidableEq, Repr, Inhabited

/-- The instruction an operand names. -/
def Operand.inst? : Operand → Option InstId
  | .inst id => some id
  | _ => none

/-! ## 2. Instructions -/

/-- What an instruction does. -/
inductive InstKind where
  /-- Both operands have the type of the result. -/
  | binary (op : BinaryOp) (lhs rhs : Operand)
  | fneg (value : Operand)
  | cast (op : CastOp) (value : Operand) (src : Ty)
  /-- The same bits seen as another type; mostly an address seen as another address. -/
  | view (value : Operand) (src : Ty)
  | alloca (allocated : Ty) (align : Option Nat)
  | load (ptr : Operand) (ptrTy : Ty) (align : Option Nat)
  | store (value : Operand) (valueTy : Ty) (ptr : Operand) (ptrTy : Ty) (align : Option Nat)
  /-- The address of a part of an aggregate. -/
  | elementPtr (inbounds : Bool) (source : Ty) (base : Operand) (baseTy : Ty)
      (indices : List (Ty × Operand))
  | call (callee : String) (args : List (Ty × Operand))
  | ret (value : Option (Ty × Operand))
  | icmp (pred : IntPredicate) (ty : Ty) (lhs rhs : Operand)
  | fcmp (pred : FloatPredicate) (ty : Ty) (lhs rhs : Operand)
  | br (target : BlockId)
  | condBr (cond : Operand) (thenBlock elseBlock : BlockId)
  | phi (incoming : List (Operand × BlockId))
  deriving Repr, Inhabited

namespace InstKind

/-- The operands, in the order in which they are written. -/
def operands : InstKind → List Operand
  | binary _ lhs rhs | icmp _ _ lhs rhs | fcmp _ _ lhs rhs => [lhs, rhs]
  | fneg v | cast _ v _ | view v _ => [v]
  | alloca .. | br _ => []
  | load ptr .. => [ptr]
  | store v _ ptr .. => [v, ptr]
  | elementPtr _ _ base _ indices => base :: indices.map Prod.snd
  | call _ args => args.map Prod.snd
  | ret v => v.toList.map Prod.snd
  | condBr c .. => [c]
  | phi incoming => incoming.map Prod.fst

/-- The instruction with every operand replaced. -/
def mapOperands (f : Operand → Operand) : InstKind → InstKind
  | binary op lhs rhs => binary op (f lhs) (f rhs)
  | fneg v => fneg (f v)
  | cast op v src => cast op (f v) src
  | view v src => view (f v) src
  | alloca t a => alloca t a
  | load ptr t a => load (f ptr) t a
  | store v vt ptr pt a => store (f v) vt (f ptr) pt a
  | elementPtr i s base bt indices =>
    elementPtr i s (f base) bt (indices.map fun (t, v) => (t, f v))
  | call callee args => call callee (args.map fun (t, v) => (t, f v))
  | ret v => ret (v.map fun (t, v) => (t, f v))
  | icmp p t lhs rhs => icmp p t (f lhs) (f rhs)
  | fcmp p t lhs rhs => fcmp p t (f lhs) (f rhs)
  | br b => br b
  | condBr c t e => condBr (f c) t e
  | phi incoming => phi (incoming.map fun (v, b) => (f v, b))

/-- The blocks a branch leads to. -/
def successors : InstKind → List BlockId
  | br b => [b]
  | condBr _ t e => [t, e]
  | _ => []

/-- The instruction with every block it names replaced. -/
def mapBlocks (f : BlockId → BlockId) : InstKind → InstKind
  | br b => br (f b)
  | condBr c t e => condBr c (f t) (f e)
  | phi incoming => phi (incoming.map fun (v, b) => (v, f b))
  | k => k

/-- A phi without the values from blocks that fail a test. -/
def filterIncoming (keep : BlockId → Bool) : InstKind → InstKind
  | phi incoming => phi (incoming.filter fun (_, b) => keep b)
  | k => k

/-- Whether the instruction ends a block. -/
def isTerminator : InstKind → Bool
  | br _ | condBr .. | ret _ => true
  | _ => false

/-- The instruction with another alignment, if it is one that has an alignment. -/
def withAlign? (a : Nat) : InstKind → Option InstKind
  | alloca t _ => some (alloca t (some a))
  | load ptr t _ => some (load ptr t (some a))
  | store v vt ptr pt _ => some (store v vt ptr pt (some a))
  | _ => none

end InstKind

/-- An instruction in its function. -/
structure Inst where
  name : Option String
  kind : InstKind
  /-- The type of the result; `void` if there is none. -/
  ty : Ty
  dbg : Option DebugBinding
  /-- The block that lists the instruction. -/
  block : BlockId
  /-- Whether the instruction has been taken out of the function. -/
  erased : Bool
  deriving Repr, Inhabited

end RangedIR
