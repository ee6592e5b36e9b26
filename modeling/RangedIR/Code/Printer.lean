/-
RangedIR.Code.Printer — modules as text.

`Module.text?` writes the text that reading takes back. It has no answer for a
module in which a live instruction names a block, instruction or global that
does not exist.
-/
import RangedIR.Code.Module

namespace RangedIR

/-! ## 1. Instructions -/

/-- An alignment clause. -/
def alignText : Option Nat → String
  | some a => ", align " ++ Nat.repr a
  | none => ""

/-- Texts with commas between them. -/
def commaSeparated (texts : List String) : String := String.intercalate ", " texts

/-- What an instruction needs to write its operands. -/
structure Naming where
  /-- The text of an operand. -/
  operand? : Operand → Option String
  /-- The text of a reference to a block. -/
  label? : BlockId → Option String

namespace Naming

/-- The names of a function's values and blocks. -/
def ofFunction (m : Module) (f : Function) : Naming where
  operand? op := match op with
    | .global g => m.globals[g]?.map fun g => "@" ++ g.name
    | op => f.valueName? op
  label? b := f.blocks[b]?.map fun b => "%" ++ b.label

/-- A value with its type in front. -/
def typed? (n : Naming) (tv : Ty × Operand) : Option String :=
  (n.operand? tv.2).map fun v => tv.1.text ++ " " ++ v

/-- A value of a phi with its block. -/
def incoming? (n : Naming) (vb : Operand × BlockId) : Option String := do
  let v ← n.operand? vb.1
  let l ← n.label? vb.2
  pure ("[" ++ v ++ ", " ++ l ++ "]")

/-- Two operands of one type. -/
def pair? (n : Naming) (ty : Ty) (lhs rhs : Operand) : Option String := do
  let a ← n.operand? lhs
  let b ← n.operand? rhs
  pure (ty.text ++ " " ++ a ++ ", " ++ b)

/-- The text of an instruction with a result of type `ty`. -/
def kindText? (n : Naming) (ty : Ty) : InstKind → Option String
  | .binary op lhs rhs => do pure (op.name ++ " " ++ (← n.pair? ty lhs rhs))
  | .fneg v => do pure ("fneg " ++ (← n.typed? (ty, v)))
  | .cast op v src => do pure (op.name ++ " " ++ (← n.typed? (src, v)) ++ " to " ++ ty.text)
  | .view v src => do pure ("bitcast " ++ (← n.typed? (src, v)) ++ " to " ++ ty.text)
  | .alloca t a => some ("alloca " ++ t.text ++ alignText a)
  | .load ptr pt a => do
    pure ("load " ++ ty.text ++ ", " ++ (← n.typed? (pt, ptr)) ++ alignText a)
  | .store v vt ptr pt a => do
    pure ("store " ++ (← n.typed? (vt, v)) ++ ", " ++ (← n.typed? (pt, ptr)) ++ alignText a)
  | .elementPtr inbounds source base bt indices => do
    let b ← n.typed? (bt, base)
    let is ← indices.mapM n.typed?
    pure ("getelementptr " ++ (if inbounds then "inbounds " else "") ++ source.text ++ ", " ++ b ++
      String.join (is.map (", " ++ ·)))
  | .call callee args => do
    let as ← args.mapM n.typed?
    pure ("call " ++ ty.text ++ " @" ++ callee ++ "(" ++ commaSeparated as ++ ")")
  | .ret none => some "ret void"
  | .ret (some tv) => do pure ("ret " ++ (← n.typed? tv))
  | .icmp p t lhs rhs => do pure ("icmp " ++ p.name ++ " " ++ (← n.pair? t lhs rhs))
  | .fcmp p t lhs rhs => do pure ("fcmp " ++ p.name ++ " " ++ (← n.pair? t lhs rhs))
  | .br b => do pure ("br label " ++ (← n.label? b))
  | .condBr c t e => do
    let c ← n.operand? c
    let t ← n.label? t
    let e ← n.label? e
    pure ("br i1 " ++ c ++ ", label " ++ t ++ ", label " ++ e)
  | .phi incoming => do
    let is ← incoming.mapM n.incoming?
    pure ("phi " ++ ty.text ++ " " ++ commaSeparated is)

/-- The line of an instruction. -/
def instLine? (n : Naming) (i : Inst) : Option String := do
  let k ← n.kindText? i.ty i.kind
  let result := match i.name with
    | some name => "%" ++ name ++ " = "
    | none => ""
  let note := match i.dbg with
    | some b => b.text
    | none => ""
  pure ("  " ++ result ++ k ++ note ++ "\n")

end Naming

/-! ## 2. Functions -/

/-- The lines of a block. -/
def Function.blockText? (m : Module) (f : Function) (b : Block) : Option String := do
  let lines ← b.insts.mapM fun id => do (Naming.ofFunction m f).instLine? (← f.inst? id)
  pure (b.label ++ ":\n" ++ String.join lines)

/-- The first line of a definition. -/
def Function.header (f : Function) : String :=
  let params := f.params.map fun p => p.ty.text ++ " %" ++ p.name
  let range := match f.rangeType with
    | some r => " !range(\"" ++ r ++ "\")"
    | none => ""
  "define " ++ f.retTy.text ++ " @" ++ f.name ++ "(" ++ commaSeparated params ++ ")" ++ range ++
    " \x7b\n"

/-- The text of a definition. -/
def Function.text? (m : Module) (f : Function) : Option String := do
  let blocks ← f.blocks.mapM (f.blockText? m)
  pure (f.header ++ String.intercalate "\n" blocks ++ "\x7d\n")

/-! ## 3. Modules -/

def NamedType.text (t : NamedType) : String :=
  "%" ++ t.name ++ " = type " ++ Ty.fieldsText t.fields ++ "\n"

def GlobalInit.text : GlobalInit → String
  | .scalar c => c.text
  | .array cs => "[" ++ commaSeparated (cs.map (·.text)) ++ "]"

def Global.text (g : Global) : String :=
  "@" ++ g.name ++ " = " ++ (if g.isConstant then "constant" else "global") ++ " " ++ g.ty.text ++
    " " ++ g.init.text ++ "\n"

def Declaration.text (d : Declaration) : String :=
  "declare " ++ d.retTy.text ++ " @" ++ d.name ++ "(" ++ commaSeparated (d.params.map (·.text)) ++
    ")\n"

/-- The text of a module: its parts in order, with a blank line between those
that are there. Each function is a part of its own. -/
def Module.text? (m : Module) : Option String := do
  let functions ← m.functions.mapM (·.text? m)
  let layout := match m.dataLayout with
    | some dl => "target datalayout = \"" ++ dl ++ "\"\n"
    | none => ""
  let parts := layout :: String.join (m.types.map (·.text)) :: String.join (m.globals.map (·.text)) ::
    String.join (m.declarations.map (·.text)) :: functions
  pure (String.intercalate "\n" (parts.filter (! ·.isEmpty)))

end RangedIR
