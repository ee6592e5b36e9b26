/-
RangedIR.Analysis.Engine — the range analysis.

One pass through a function finds an interval for every value that can be
bounded. Blocks and instructions are taken in the order in which they stand,
each once. Memory follows the control flow: a block starts from what holds at
the ends of the blocks that lead to it, and the header of a loop forgets what
the loop may write.
-/
import RangedIR.Analysis.Call
import RangedIR.Interval.Decision

namespace RangedIR

/-! ## 1. Constant globals -/

/-- Enter a constant global: a scalar by its value, a table by its elements and
their hull. -/
def Bounds.seedGlobal (b : Bounds) (id : GlobalId) (g : Global) : Bounds :=
  if !g.isConstant then b
  else
    match g.init with
    | .scalar c => b.insert (.global id) (.singleton c.value)
    | .array cs =>
      let elements := cs.map fun c => Interval.singleton c.value
      let b := match Interval.hullOf elements with
        | some hull => b.insert (.global id) hull
        | none => b
      b.insertElements (.global id) elements

/-- Enter the constant globals of a module. -/
def Bounds.seedGlobals (b : Bounds) (m : Module) : Bounds :=
  m.globals.zipIdx.foldl (fun b (g, id) => b.seedGlobal id g) b

namespace State

/-! ## 2. Instructions -/

/-- The hull of the values of a phi, all of which must be known. -/
def phi (s : State) (incoming : List (Operand × BlockId)) : Option Bound :=
  (incoming.mapM fun (vb : Operand × BlockId) => s.operand? vb.1).bind Interval.hullOf

/-- A return. -/
def ret (s : State) (value : Option (Ty × Operand)) : State :=
  let r := value.bind fun (_, op) => (s.operand? op).map fun i => (op, i)
  { s with frame := { s.frame with returns := s.frame.returns ++ [r] } }

/-- What an instruction does to the state and what is known about its result. -/
def transfer (s : State) (ctx : Context) (descend : Descent) (id : InstId) (i : Inst) :
    State × Option Bound :=
  match i.kind with
  | .binary op lhs rhs => s.conclude id (Transfer.binary op i.ty s.operand? lhs rhs)
  | .fneg v => (s, (s.operand? v).map Interval.neg)
  | .cast op v src =>
    match s.operand? v with
    | some x => s.conclude id (Transfer.cast op src i.ty x)
    | none => (s, none)
  | .view v src => s.view id v src i.ty
  | .alloca .. => (s, none)
  | .load ptr _ _ => (s, s.load i.ty ptr)
  | .store v vt ptr _ _ => (s.store ctx.module v vt ptr, none)
  | .elementPtr _ source base _ indices => s.elementPtr ctx.layout id i.ty source base indices
  | .call callee args => s.call ctx descend id i.dbg callee args
  | .ret v => (s.ret v, none)
  | .icmp p _ lhs rhs =>
    (s, do pure (p.decide (← s.operand? lhs) (← s.operand? rhs)).bound)
  | .fcmp p _ lhs rhs =>
    (s, do pure (p.decide (← s.operand? lhs) (← s.operand? rhs)).bound)
  | .br _ | .condBr .. => (s, none)
  | .phi incoming => (s, s.phi incoming)

/-- One instruction: its result is recorded if it is known. -/
def step (s : State) (ctx : Context) (descend : Descent) (id : InstId) : State :=
  match s.frame.function.inst? id with
  | none => s
  | some i =>
    let (s, result) := s.transfer ctx descend id i
    match result with
    | some r => { s with bounds := s.bounds.insert (.inst s.frame.id id) r }
    | none => s

/-- The instructions of a block, and whether the budget lasted. -/
def steps (ctx : Context) (descend : Descent) : List InstId → State → State × Bool
  | [], s => (s, true)
  | id :: rest, s =>
    let (run, go) := s.run.tick ctx.limits s.frame.function.name
    let s := { s with run := run }
    if go then steps ctx descend rest (s.step ctx descend id) else (s, false)

/-! ## 3. Blocks -/

/-- The state of memory at the start of a block, or none if it stays as it is. -/
def entryState (s : State) (m : Module) (b : BlockId) : Option MemoryState :=
  let preds := s.frame.predecessors[b]?.getD []
  let joined := MemoryState.joinAll (preds.filterMap s.frame.exits.find?)
  let latches := preds.filter fun p => !s.frame.exits.contains p
  if joined.isNone && latches.isEmpty && b = 0 then none
  else
    let start := match joined with
      | some j => j
      | none => if b = 0 then s.frame.snapshot m s.bounds else .unknown
    if latches.isEmpty then some start
    else
      match (s.frame.loopEffects m b latches).join with
      | some e => some (s.frame.havoc m start e)
      | none => some .unknown

/-- Set up memory at the start of a block. -/
def enterBlock (s : State) (m : Module) (b : BlockId) : State :=
  match s.entryState m b with
  | some mem => s.restore m mem
  | none => s

/-- Blocks in order, numbered from `b` on, until the budget is used up. -/
def blocks (ctx : Context) (descend : Descent) : BlockId → List Block → State → State
  | _, [], s => s
  | b, block :: rest, s =>
    let (s, go) := steps ctx descend block.insts (s.enterBlock ctx.module b)
    if go then
      let exit := s.frame.snapshot ctx.module s.bounds
      let s := { s with frame := { s.frame with exits := s.frame.exits.insert b exit } }
      blocks ctx descend (b + 1) rest s
    else s

/-! ## 4. Functions -/

/-- Whether a block ends in a return. -/
def returnsFrom (f : Function) (b : BlockId) : Bool :=
  match (f.terminator? b).bind f.kind? with
  | some (.ret _) => true
  | _ => false

/-- Leave a function with what holds at the ends of its returning blocks. -/
def leave (s : State) (m : Module) : State :=
  let ends := (List.range s.frame.function.blocks.length).filterMap fun b =>
    if returnsFrom s.frame.function b then s.frame.exits.find? b else none
  s.restore m ((MemoryState.joinAll ends).getD .unknown)

end State

/-- The last operand returned and the hull of all values returned, all of which
must be known. -/
def foldReturns (returns : List (Option (Operand × Bound))) : Option (Operand × Bound) := do
  let known ← returns.mapM id
  let (op, _) ← known.getLast?
  let hull ← Interval.hullOf (known.map Prod.snd)
  pure (op, hull)

/-- Go through a function, following calls at most `depth` deep. -/
def analyzeWithin (ctx : Context) : Nat → FuncId → Run → Bounds → Option Location →
    Run × Bounds × Option (Operand × Bound)
  | 0, _, run, bounds, _ => (run, bounds, none)
  | depth + 1, id, run, bounds, site =>
    match ctx.module.functions[id]? with
    | none => (run, bounds, none)
    | some f =>
      let descend : Descent := fun callee run bounds site =>
        let (run, bounds, result) := analyzeWithin ctx depth callee run bounds site
        (run, bounds, result.map Prod.snd)
      let start : State :=
        ⟨{ run with stack := ⟨id, site⟩ :: run.stack }, .start id f, bounds⟩
      let s := (State.blocks ctx descend 0 f.blocks start).leave ctx.module
      ({ s.run with stack := s.run.stack.drop 1 }, s.bounds, foldReturns s.frame.returns)

/-- Analyse a function. Its intervals are entered into the bounds; the answer is
the operand returned last and its interval, if every return yields a known
value. No function is followed while it is being analysed, so the number of
functions bounds the depth. -/
def analyzeFunction (ctx : Context) (run : Run) (id : FuncId) (bounds : Bounds) :
    Run × Bounds × Option (Operand × Bound) :=
  analyzeWithin ctx ctx.module.functions.length id run.restart bounds none

end RangedIR
