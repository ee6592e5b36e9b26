/-
RangedIR.Proofs.Semantics.Machine — executions of functions.

A machine says what values there are and what single instructions do with them; the
control flow is the same for all machines. An execution goes through a block
instruction by instruction. On the way into a block its phis are given the values
that belong to the block left, all at once; they are passed over where they stand.
-/
import RangedIR.Code.Module
import RangedIR.Proofs.Number.Arithmetic

namespace RangedIR

open Number

/-! ## 1. Machines -/

/-- What an execution can be seen to do: the stores and the calls, with the values of
their operands. -/
inductive Event (V : Type) where
  | store (values : List V)
  | call (callee : String) (values : List V)

/-- Values `V`, worlds `W` and the work of single instructions. Whatever an instruction
does depends on its operation and on the values of its operands, not on where the
operands come from. -/
structure Machine (V W : Type) where
  /-- The exact number that a value is, if it is one. -/
  number? : V → Option Extended
  literal : Constant → V
  undefined : V
  global : GlobalId → V
  /-- The result of an instruction that only computes. -/
  compute : InstKind → Ty → List V → Option V
  /-- The result of an instruction that works on the world. -/
  act : InstId → InstKind → Ty → List V → W → Option (V × W)

namespace InstKind

/-- The operation without its operands. -/
def shape (k : InstKind) : InstKind := k.mapOperands fun _ => Operand.undef

/-- Whether the instruction works on memory or calls a function. -/
def actsOnWorld : InstKind → Bool
  | alloca .. | load .. | store .. | call .. => true
  | _ => false

/-- Whether the instruction stands for itself: not a phi and not the end of a block. -/
def isPlain : InstKind → Bool
  | phi _ => false
  | k => !k.isTerminator

/-- What an instruction can be seen to do with the given operands. -/
def events {V : Type} (k : InstKind) (values : List V) : List (Event V) :=
  match k with
  | store .. => [.store values]
  | call callee _ => [.call callee values]
  | _ => []

end InstKind

section Values

variable {α β : Type} {g : α → Option β} {x y : α} {l : List α} {r : List β}

theorem mapM_cons_eq_some : (x :: l).mapM g = some r ↔ ∃ v, g x = some v ∧ ∃ vs, l.mapM g = some vs ∧ v :: vs = r := by
  simp [List.mapM_cons, Option.bind_eq_some_iff]

theorem mapM_one (h : [x].mapM g = some r) : ∃ v, r = [v] ∧ g x = some v := by
  obtain ⟨v, hv, _, hnil, rfl⟩ := mapM_cons_eq_some.mp h
  cases hnil
  exact ⟨v, rfl, hv⟩

theorem mapM_two (h : [x, y].mapM g = some r) : ∃ v w, r = [v, w] ∧ g x = some v ∧ g y = some w := by
  obtain ⟨v, hv, _, hrest, rfl⟩ := mapM_cons_eq_some.mp h
  obtain ⟨w, rfl, hw⟩ := mapM_one hrest
  exact ⟨v, w, rfl, hv, hw⟩

end Values

/-- Whether an instruction is a phi. -/
def Function.IsPhi (f : Function) (i : InstId) : Prop := ∃ incoming, f.kind? i = some (.phi incoming)

namespace Machine

variable {V W : Type} (M : Machine V W)

/-! ## 2. Steps -/

/-- The value of an operand, given the arguments and the results so far. -/
def eval (args : List V) (env : InstId → Option V) : Operand → Option V
  | .inst i => env i
  | .arg i => args[i]?
  | .global g => some (M.global g)
  | .const c => some (M.literal c)
  | .undef => some M.undefined

/-- What an instruction does with the values of its operands. -/
def perform (i : InstId) (inst : Inst) (values : List V) (world : W) : Option (V × W) :=
  if inst.kind.actsOnWorld then M.act i inst.kind.shape inst.ty values world
  else (M.compute inst.kind.shape inst.ty values).map fun v => (v, world)

/-- The value of a phi on the way in from a block; none at the start of the function. -/
def phiValue? (args : List V) (env : InstId → Option V) (prev : Option BlockId)
    (incoming : List (Operand × BlockId)) : Option V :=
  (incoming.find? fun e => prev == some e.2).bind fun e => M.eval args env e.1

theorem phiValue?_start (args : List V) (env : InstId → Option V) (incoming : List (Operand × BlockId)) :
    M.phiValue? args env none incoming = none := by
  unfold phiValue?
  rw [List.find?_eq_none.mpr (by simp), Option.bind_none]

/-- Where a branch leads. -/
def target? (args : List V) (env : InstId → Option V) : InstKind → Option BlockId
  | .br b => some b
  | .condBr cond t e => (M.eval args env cond).map fun v => if M.number? v = some 0 then e else t
  | _ => none

/-- A point of an execution: what remains of the current block, the results so far, the
world, and what was seen. -/
structure Config (V W : Type) where
  block : BlockId
  rest : List InstId
  env : InstId → Option V
  world : W
  trace : List (Event V)

/-- Going into a block gives all its phis their values and keeps the other results. -/
structure Enters (f : Function) (args : List V) (prev : Option BlockId) (env : InstId → Option V)
    (b : BlockId) (insts : List InstId) (env' : InstId → Option V) : Prop where
  block : f.blocks[b]?.map (·.insts) = some insts
  phis : ∀ i ∈ insts, ∀ incoming, f.kind? i = some (.phi incoming) →
    ∃ v, M.phiValue? args env prev incoming = some v ∧ env' i = some v
  others : ∀ i, (i ∈ insts → ¬ f.IsPhi i) → env' i = env i

/-- One step inside a function. -/
inductive Step (f : Function) (args : List V) : Config V W → Config V W → Prop
  /-- A phi has its value already. -/
  | phi {c : Config V W} {i : InstId} {rest : List InstId} :
      c.rest = i :: rest → f.IsPhi i → Step f args c { c with rest := rest }
  | plain {c : Config V W} {i : InstId} {rest : List InstId} {inst : Inst} {values : List V} {v : V} {w : W} :
      c.rest = i :: rest → f.inst? i = some inst → inst.kind.isPlain = true →
      inst.kind.operands.mapM (M.eval args c.env) = some values →
      M.perform i inst values c.world = some (v, w) →
      Step f args c ⟨c.block, rest, Function.update c.env i (some v), w, c.trace ++ inst.kind.events values⟩
  | jump {c : Config V W} {i : InstId} {rest insts : List InstId} {k : InstKind} {b : BlockId}
      {env : InstId → Option V} :
      c.rest = i :: rest → f.kind? i = some k → M.target? args c.env k = some b →
      M.Enters f args (some c.block) c.env b insts env →
      Step f args c ⟨b, insts, env, c.world, c.trace⟩

/-- The execution ends here with a result. -/
inductive Returns (f : Function) (args : List V) : Config V W → Option V → Prop
  | void {c : Config V W} {i : InstId} {rest : List InstId} :
      c.rest = i :: rest → f.kind? i = some (.ret none) → Returns f args c none
  | value {c : Config V W} {i : InstId} {rest : List InstId} {ty : Ty} {op : Operand} {v : V} :
      c.rest = i :: rest → f.kind? i = some (.ret (some (ty, op))) → M.eval args c.env op = some v →
      Returns f args c (some v)

/-! ## 3. Executions -/

/-- The start of an execution in a world. -/
inductive Starts (f : Function) (args : List V) (world : W) : Config V W → Prop
  | intro {insts : List InstId} {env : InstId → Option V} :
      M.Enters f args none (fun _ => none) 0 insts env → Starts f args world ⟨0, insts, env, world, []⟩

/-- A point that an execution comes to. -/
inductive Reaches (f : Function) (args : List V) (world : W) : Config V W → Prop
  | start {c : Config V W} : M.Starts f args world c → Reaches f args world c
  | step {c d : Config V W} : Reaches f args world c → M.Step f args c d → Reaches f args world d

/-- The execution goes on from a point to its end, and every point on the way has the
property `P`. The result and everything seen are kept. -/
inductive Finishes (f : Function) (args : List V) (P : Config V W → Prop) :
    Config V W → Option V → List (Event V) → Prop
  | done {c : Config V W} {v : Option V} : P c → M.Returns f args c v → Finishes f args P c v c.trace
  | next {c d : Config V W} {v : Option V} {trace : List (Event V)} :
      P c → M.Step f args c d → Finishes f args P d v trace → Finishes f args P c v trace

end Machine

end RangedIR
