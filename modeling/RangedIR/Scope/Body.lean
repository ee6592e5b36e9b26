/-
RangedIR.Scope.Body — functions with their names resolved.

All labels and results of a function are numbered first, so that an instruction
may refer to what stands behind it.
-/
import RangedIR.Code.Module
import RangedIR.Scope.Types

namespace RangedIR.Scope

open Source

/-! ## 1. Names in scope -/

/-- What the names of a module stand for. -/
structure ModuleNames where
  types : TypeDefs
  globals : Table String GlobalId
  /-- Functions that are declared or defined. -/
  callees : List String

/-- What the names of a function stand for. -/
structure LocalNames where
  values : Table String Operand
  labels : Table String BlockId

/-- Everything an instruction may refer to. -/
structure Names where
  function : String
  outer : ModuleNames
  inner : LocalNames

/-- The beginning of the names of functions that bind source variables. They
need no declaration. -/
def debugPrefix : String := "llvm.dbg."

/-- Whether a name is that of a function that binds source variables. -/
def isDebugName (name : String) : Bool := debugPrefix.isPrefixOf name

/-! ## 2. Operands -/

/-- The constant that a literal is at a type. -/
def resolveLiteral (function : Option String) (lit : Literal) (ty : Ty) : Checked (Option Constant) :=
  match lit with
  | .int v =>
    .clean <| some <|
      match ty with
      | .float | .double => .float (Number.ofInt v)
      | .int 1 => .bool (v != 0)
      | _ => .int v
  | .float v => if ty.isFloating then .clean (some (.float v)) else .missing function (.floatLiteral v ty)
  | .bool b => .clean (some (.bool b))

namespace Names

def type (n : Names) (t : TypeExpr) : Checked Ty := typeOrVoid n.outer.types t

/-- Tell a fault of the function. -/
def tell (n : Names) (fault : Fault) : Checked Unit := Checked.tell (some n.function) fault

def value (n : Names) (v : ValueExpr) (ty : Ty) : Checked Operand :=
  match v with
  | .loc x =>
    match n.inner.values.find? x.name with
    | some op => .clean op
    | none => do
      n.tell (.undefinedValue x.name)
      pure .undef
  | .glob g =>
    match n.outer.globals.find? g.name with
    | some id => .clean (.global id)
    | none => do
      n.tell (.undefinedGlobal g.name)
      pure .undef
  | .lit l => do
    match ← resolveLiteral (some n.function) l ty with
    | some c => pure (.const c)
    | none => pure .undef
  | .undef => .clean .undef

def typed (n : Names) (t : Typed) : Checked (Ty × Operand) := do
  let ty ← n.type t.ty
  let op ← n.value t.value ty
  pure (ty, op)

def label (n : Names) (l : Ident) : Checked BlockId :=
  match n.inner.labels.find? l.name with
  | some b => .clean b
  | none => do
    n.tell (.undefinedLabel l.name)
    pure 0

end Names

/-! ## 3. Instructions -/

/-- The index that an operand is known to be. -/
def literalIndex? : Operand → Option Int
  | .const (.int i) => some i
  | _ => none

/-- The type that an index path leads to. The first index steps over whole
objects, the others go into them. -/
def elementType? (source : Ty) (indices : List (Ty × Operand)) : Option Ty :=
  (indices.drop 1).foldlM (fun t (_, op) => t.indexInto (literalIndex? op)) source

/-- What an instruction does and the type of its result. -/
def Names.instruction (n : Names) : InstExpr → Checked (InstKind × Ty)
  | .binary op ty lhs rhs => do
    let ty ← n.type ty
    let lhs ← n.value lhs ty
    let rhs ← n.value rhs ty
    pure (.binary op lhs rhs, ty)
  | .fneg ty v => do
    let ty ← n.type ty
    let v ← n.value v ty
    pure (.fneg v, ty)
  | .cast op src v dst => do
    let src ← n.type src
    let v ← n.value v src
    let dst ← n.type dst
    pure (.cast op v src, dst)
  | .bitcast src v dst => do
    let src ← n.type src
    let v ← n.value v src
    let dst ← n.type dst
    pure (.view v src, dst)
  | .alloca ty align => do
    let ty ← n.type ty
    pure (.alloca ty align, .ptr ty)
  | .load ty ptr align => do
    let ty ← n.type ty
    let (pt, ptr) ← n.typed ptr
    pure (.load ptr pt align, ty)
  | .store v ptr align => do
    let (vt, v) ← n.typed v
    let (pt, ptr) ← n.typed ptr
    pure (.store v vt ptr pt align, .void)
  | .elementPtr inbounds source base indices => do
    let source ← n.type source
    let (bt, base) ← n.typed base
    let indices ← Checked.each n.typed indices
    let kind := InstKind.elementPtr inbounds source base bt indices
    match elementType? source indices with
    | some t => pure (kind, .ptr t)
    | none =>
      n.tell (.invalidIndexPath source)
      pure (kind, .void)
  | .call ret callee args => do
    Checked.tellIf (!n.outer.callees.contains callee.name && !isDebugName callee.name)
      (some n.function) (.undeclaredCallee callee.name)
    let ty ← n.type ret
    let args ← Checked.each n.typed args
    pure (.call callee.name args, ty)
  | .ret none => pure (.ret none, .void)
  | .ret (some v) => do
    let v ← n.typed v
    pure (.ret (some v), .void)
  | .icmp pred ty lhs rhs => do
    let ty ← n.type ty
    let lhs ← n.value lhs ty
    let rhs ← n.value rhs ty
    pure (.icmp pred ty lhs rhs, .int 1)
  | .fcmp pred ty lhs rhs => do
    let ty ← n.type ty
    let lhs ← n.value lhs ty
    let rhs ← n.value rhs ty
    pure (.fcmp pred ty lhs rhs, .int 1)
  | .br target => do
    let b ← n.label target
    pure (.br b, .void)
  | .condBr cond thenLabel elseLabel => do
    let cond ← n.value cond (.int 1)
    let t ← n.label thenLabel
    let e ← n.label elseLabel
    pure (.condBr cond t e, .void)
  | .phi ty incoming => do
    let ty ← n.type ty
    let incoming ← Checked.each (fun (v, l) => do
      let v ← n.value v ty
      let b ← n.label l
      pure (v, b)) incoming
    pure (.phi incoming, ty)

/-- An instruction of a block. -/
def Names.inst (n : Names) (block : BlockId) (i : InstDef) : Checked Inst := do
  let (kind, ty) ← n.instruction i.kind
  pure {
    name := i.result.map (·.name)
    kind := kind
    ty := ty
    dbg := i.dbg.map fun (name, ty) => ⟨name, DebugType.ofText ty⟩
    block := block
    erased := false }

/-- Blocks numbered from `block` on, and their instructions, numbered from `id` on. -/
def Names.blocks (n : Names) : BlockId → InstId → List BlockDef → Checked (List Block × List Inst)
  | _, _, [] => .clean ([], [])
  | block, id, b :: rest => do
    let insts ← Checked.each (n.inst block) b.insts
    let (blocks, later) ← n.blocks (block + 1) (id + b.insts.length) rest
    pure (⟨b.label.name, List.range' id b.insts.length⟩ :: blocks, insts ++ later)

/-! ## 4. Functions -/

/-- Parameters numbered from `index` on. -/
def declareParams (function : String) (types : TypeDefs) :
    Nat → List (TypeExpr × Ident) → Table String Operand → Checked (Table String Operand × List Param)
  | _, [], values => .clean (values, [])
  | index, (t, x) :: rest, values => do
    let ty ← typeOrVoid types t
    Checked.tellIf (values.contains x.name) (some function) (.duplicateParameter x.name)
    let (values, params) ← declareParams function types (index + 1) rest
      (values.insert x.name (.arg index))
    pure (values, ⟨x.name, ty⟩ :: params)

/-- Results of instructions numbered from `id` on. -/
def declareResults (function : String) :
    InstId → List InstDef → Table String Operand → Checked (Table String Operand)
  | _, [], values => .clean values
  | id, i :: rest, values =>
    match i.result with
    | none => declareResults function (id + 1) rest values
    | some x => do
      Checked.tellIf (values.contains x.name) (some function) (.duplicateValue x.name)
      declareResults function (id + 1) rest (values.insert x.name (.inst id))

/-- Labels and results of blocks numbered from `block` on. -/
def declareBlocks (function : String) :
    BlockId → InstId → List BlockDef → LocalNames → Checked LocalNames
  | _, _, [], names => .clean names
  | block, id, b :: rest, names => do
    Checked.tellIf (names.labels.contains b.label.name) (some function)
      (.duplicateLabel b.label.name)
    let values ← declareResults function id b.insts names.values
    declareBlocks function (block + 1) (id + b.insts.length) rest
      ⟨values, names.labels.insert b.label.name block⟩

/-- A function with its names resolved. -/
def resolveFunction (outer : ModuleNames) (d : FunctionDef) : Checked Function := do
  let name := d.name.name
  let (values, params) ← declareParams name outer.types 0 d.params .empty
  Checked.tellIf d.blocks.isEmpty (some name) .noBlocks
  let inner ← declareBlocks name 0 0 d.blocks ⟨values, .empty⟩
  let (blocks, insts) ← Names.blocks ⟨name, outer, inner⟩ 0 0 d.blocks
  let ret ← typeOrVoid outer.types d.ret
  pure {
    name := name
    retTy := ret
    params := params
    rangeType := d.range
    blocks := blocks
    insts := insts }

end RangedIR.Scope
