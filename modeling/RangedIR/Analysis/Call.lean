/-
RangedIR.Analysis.Call — calls.

A function that is not defined here may write every global and whatever its
arguments point into. A defined one is analysed with what is known about its
arguments, unless it is being analysed already or the calls are nested too deep.
-/
import RangedIR.Analysis.Access
import RangedIR.Analysis.Effects

namespace RangedIR

/-- Where a call goes on inside another function: a run, what is known there and
the place of the call are taken to the run and what is known behind it, and the
result. -/
abbrev Descent := FuncId → Run → Bounds → Option Location → Run × Bounds × Option Bound

namespace State

/-! ## 1. Functions that are not defined here -/

/-- Forget what an unknown function may write. -/
def clobber (s : State) (m : Module) (args : List (Ty × Operand)) : State :=
  let roots := (args.filter fun (ty, _) => ty.isPointer).map fun (_, op) => s.frame.addressRoot op
  let everything := roots.contains none
  let forgotten := s.forgetWhere m fun _ root =>
    match root with
    | some r => everything || m.isMutable r || roots.contains (some r)
    | none => true
  if everything then forgotten.invalidate none
  else roots.foldl (fun s root => s.invalidate root) forgotten

/-- What is known about the arguments of a call, if all are known. -/
def knownArgs (s : State) (args : List (Ty × Operand)) : Option (List Bound) :=
  args.mapM fun arg => s.operand? arg.2

/-- A call to a function that is not defined here. -/
def callExternal (s : State) (m : Module) (id : InstId) (callee : String)
    (args : List (Ty × Operand)) : State × Option Bound :=
  match Routine.ofName? callee with
  | some routine => (s, (s.knownArgs args).bind routine.apply)
  | none =>
    let s := s.clobber m args
    match s.knownArgs args with
    | none => (s, none)
    | some _ => s.conclude id (.refused (.callNotModelled callee))

/-! ## 2. Functions that are defined -/

/-- The name of a call site: the function and what is known about the arguments. -/
def siteName (callee : String) (args : List (Option Bound)) : String :=
  let texts := args.map fun
    | some i => Number.plainText i.lo ++ "," ++ Number.plainText i.hi
    | none => "?"
  callee ++ "[" ++ String.intercalate ";" texts ++ "]"

/-- Why a call is not followed, if it is not. -/
def refusal? (s : State) (ctx : Context) (callee : FuncId) (name : String) : Option Remark :=
  if s.run.isActive callee then
    let path := s.run.stack.map fun a =>
      let name := (ctx.module.functions[a.function]?.map (·.name)).getD ""
      (⟨"inside `@" ++ name ++ "`", a.site⟩ : Cause)
    some (.recursiveCall name path)
  else if ctx.limits.maxCallDepth ≤ s.run.stack.length then
    some (.depthReached ctx.limits.maxCallDepth name)
  else none

/-- Enter what is known of an argument. -/
def bindParameter (callee : FuncId) (b : Bounds) (arg : Option Bound × Nat) : Bounds :=
  match arg with
  | (some a, i) => b.insert (.arg callee i) a
  | (none, _) => b

/-- A scope for the body of a function, with what is known about its arguments. -/
def calleeScope (b : Bounds) (callee : FuncId) (args : List (Option Bound)) : Bounds :=
  args.zipIdx.foldl (bindParameter callee) b.child

/-- What a call leaves behind: taken from an earlier call with the same inputs,
or from going through the function. -/
def summarize (s : State) (ctx : Context) (descend : Descent) (id : InstId) (callee : FuncId)
    (args : List (Option Bound)) : Run × Summary :=
  let inputs := (callee, s.bounds.signature args)
  match if ctx.reuse then s.run.memo.find? inputs else none with
  | some summary => (s.run, summary)
  | none =>
    let (run, scope, result) :=
      descend callee s.run (calleeScope s.bounds callee args) (some (s.frame.location id))
    let summary : Summary := ⟨result, scope⟩
    ({ run with memo := run.memo.insert inputs summary }, summary)

/-- An argument that is an address: its number, its key and its object. -/
structure PointerArg where
  index : Nat
  addr : ValueKey
  root : Option ValueKey
  deriving DecidableEq, Repr

/-- The arguments that are addresses. -/
def pointerArgs (s : State) (args : List (Ty × Operand)) : List PointerArg :=
  args.zipIdx.filterMap fun ((ty, op), i) =>
    if ty.isPointer then (s.frame.key? op).map fun addr => ⟨i, addr, s.frame.addressRoot op⟩
    else none

/-- Forget the memory behind an argument. -/
def forgetPointee (s : State) (m : Module) (p : PointerArg) : State :=
  let forgotten := s.forgetWhere m fun _ keyRoot =>
    p.root.isNone || keyRoot.isNone || keyRoot == p.root
  forgotten.invalidate p.root

/-- Take over what the called function knows about the memory behind an
argument, provided that it is this function's own and no other argument reaches it. -/
def adoptPointee (s : State) (callee : FuncId) (scope : Bounds) (all : List PointerArg)
    (p : PointerArg) : State :=
  let own := match p.root with
    | some r => !r.isGlobal
    | none => false
  if own && (all.filter fun q => q.root == p.root).length == 1 then
    match scope.get? (.arg callee p.index) with
    | some i =>
      let slot := s.frame.aliases.slot p.addr
      { s with bounds := s.bounds.insert slot i, frame := s.frame.addMemory slot }
    | none => s
  else s

/-- Take over what a call leaves behind. -/
def applySummary (s : State) (m : Module) (callee : FuncId) (args : List (Ty × Operand))
    (scope : Bounds) : State :=
  let s := s.forgetWhere m fun _ root =>
    match root with
    | some r => m.isMutable r
    | none => true
  let s := { s with bounds := s.bounds.mergeChild scope }
  let pointers := s.pointerArgs args
  let s := pointers.foldl (fun s p => s.forgetPointee m p) s
  pointers.foldl (fun s p => s.adoptPointee callee scope pointers p) s

/-- Tell when the declared range of a result is not the computed one. -/
def checkRange (s : State) (id : InstId) (callee : Function) (result : Option Bound) : State :=
  match callee.rangeType, result with
  | some quantity, some inferred =>
    match s.bounds.seed? quantity with
    | some declared =>
      if declared.sameEnds inferred then s
      else s.tell id (.resultOutsideRange callee.name quantity declared inferred)
    | none => s
  | _, _ => s

/-- What is known about the arguments of a call. -/
def argBounds (s : State) (args : List (Ty × Operand)) : List (Option Bound) := args.map fun a => s.operand? a.2

/-- A call to a function that is defined. -/
def callDefined (s : State) (ctx : Context) (descend : Descent) (id : InstId) (callee : FuncId)
    (f : Function) (args : List (Ty × Operand)) : State × Option Bound :=
  match s.refusal? ctx callee f.name with
  | some remark => s.conclude id (.refused remark)
  | none =>
    let known := s.argBounds args
    let (run, summary) := s.summarize ctx descend id callee known
    let s := { s with run := run }
    let s := s.applySummary ctx.module callee args summary.scope
    let s := { s with bounds := s.bounds.recordSite (siteName f.name known) summary.scope }
    (s.checkRange id f summary.result, summary.result)

/-- A call. -/
def call (s : State) (ctx : Context) (descend : Descent) (id : InstId) (dbg : Option DebugBinding)
    (callee : String) (args : List (Ty × Operand)) : State × Option Bound :=
  if Scope.isDebugName callee then (s.bindVariable dbg args, none)
  else
    match ctx.module.functionNamed? callee with
    | none => s.callExternal ctx.module id callee args
    | some calleeId =>
      match ctx.module.functions[calleeId]? with
      | some f => s.callDefined ctx descend id calleeId f args
      | none => (s, none)

end State

end RangedIR
