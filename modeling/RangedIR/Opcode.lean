/-
RangedIR.Opcode — the names of operations.

Binary operations, conversions and the comparison predicates, each with the
word that writes it. Reading a word looks it up among the words written, so the
two cannot disagree.
-/

namespace RangedIR

/-! ## 1. Binary operations -/

/-- Arithmetic and bitwise operations of two operands. -/
inductive BinaryOp where
  | add | fadd | sub | fsub | mul | fmul
  | sdiv | udiv | fdiv | srem | urem | frem
  | shl | lshr | ashr | and | or | xor
  deriving DecidableEq, Repr, Inhabited

namespace BinaryOp

def name : BinaryOp → String
  | add => "add" | fadd => "fadd" | sub => "sub" | fsub => "fsub"
  | mul => "mul" | fmul => "fmul" | sdiv => "sdiv" | udiv => "udiv"
  | fdiv => "fdiv" | srem => "srem" | urem => "urem" | frem => "frem"
  | shl => "shl" | lshr => "lshr" | ashr => "ashr"
  | and => "and" | or => "or" | xor => "xor"

def all : List BinaryOp :=
  [add, fadd, sub, fsub, mul, fmul, sdiv, udiv, fdiv, srem, urem, frem, shl, lshr, ashr, and, or,
    xor]

/-- The operation a word names. -/
def ofName? (word : String) : Option BinaryOp := all.find? (·.name == word)

/-- Whether the operands may be exchanged. -/
def isCommutative : BinaryOp → Bool
  | add | fadd | mul | fmul | and | or | xor => true
  | _ => false

/-- Whether the operation works on bit patterns. -/
def isBitwise : BinaryOp → Bool
  | shl | lshr | ashr | and | or | xor => true
  | _ => false

/-- Whether the operation reads its operands as unsigned words. -/
def isUnsigned : BinaryOp → Bool
  | udiv | urem => true
  | _ => false

end BinaryOp

/-! ## 2. Conversions -/

/-- Value conversions. A reinterpretation of bits is not among them. -/
inductive CastOp where
  | zext | sext | fpext | trunc | fptrunc | fptoui | fptosi | uitofp | sitofp
  deriving DecidableEq, Repr, Inhabited

namespace CastOp

def name : CastOp → String
  | zext => "zext" | sext => "sext" | fpext => "fpext" | trunc => "trunc"
  | fptrunc => "fptrunc" | fptoui => "fptoui" | fptosi => "fptosi"
  | uitofp => "uitofp" | sitofp => "sitofp"

def all : List CastOp := [zext, sext, fpext, trunc, fptrunc, fptoui, fptosi, uitofp, sitofp]

/-- The conversion a word names. -/
def ofName? (word : String) : Option CastOp := all.find? (·.name == word)

end CastOp

/-! ## 3. Predicates -/

/-- Predicates of integer comparisons. -/
inductive IntPredicate where
  | eq | ne | ugt | uge | ult | ule | sgt | sge | slt | sle
  deriving DecidableEq, Repr, Inhabited

namespace IntPredicate

def name : IntPredicate → String
  | eq => "eq" | ne => "ne" | ugt => "ugt" | uge => "uge" | ult => "ult" | ule => "ule"
  | sgt => "sgt" | sge => "sge" | slt => "slt" | sle => "sle"

def all : List IntPredicate := [eq, ne, ugt, uge, ult, ule, sgt, sge, slt, sle]

/-- The predicate a word names. -/
def ofName? (word : String) : Option IntPredicate := all.find? (·.name == word)

/-- Whether the predicate orders unsigned words. -/
def isUnsigned : IntPredicate → Bool
  | ugt | uge | ult | ule => true
  | _ => false

/-- The predicate that holds of the exchanged operands. -/
def swapped : IntPredicate → IntPredicate
  | eq => eq | ne => ne
  | ugt => ult | uge => ule | ult => ugt | ule => uge
  | sgt => slt | sge => sle | slt => sgt | sle => sge

end IntPredicate

/-- Predicates of floating-point comparisons. -/
inductive FloatPredicate where
  | never | oeq | ogt | oge | olt | ole | one | ord
  | ueq | ugt | uge | ult | ule | une | uno | always
  deriving DecidableEq, Repr, Inhabited

namespace FloatPredicate

def name : FloatPredicate → String
  | never => "false" | oeq => "oeq" | ogt => "ogt" | oge => "oge" | olt => "olt" | ole => "ole"
  | one => "one" | ord => "ord" | ueq => "ueq" | ugt => "ugt" | uge => "uge" | ult => "ult"
  | ule => "ule" | une => "une" | uno => "uno" | always => "true"

def all : List FloatPredicate :=
  [never, oeq, ogt, oge, olt, ole, one, ord, ueq, ugt, uge, ult, ule, une, uno, always]

/-- The predicate a word names. -/
def ofName? (word : String) : Option FloatPredicate := all.find? (·.name == word)

/-- The predicate that holds of the exchanged operands. -/
def swapped : FloatPredicate → FloatPredicate
  | ogt => olt | oge => ole | olt => ogt | ole => oge
  | ugt => ult | uge => ule | ult => ugt | ule => uge
  | p => p

end FloatPredicate

end RangedIR
