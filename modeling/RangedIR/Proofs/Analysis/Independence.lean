/-
RangedIR.Proofs.Analysis.Independence — analyses that follow one another.

One run serves many requests. It carries along what has been told, the functions that are
active, the summaries of calls, the instructions counted and whether the end of the budget
has been reported. Of all this only what has been told outlasts an analysis, and nothing reads
it: every step does the same behind other diagnostics. So an analysis answers what it would
answer alone, whatever was analysed before.
-/
import RangedIR.Pipeline
import RangedIR.Proofs.Analysis.Alike

namespace RangedIR

/-! ## 1. Behind other diagnostics -/

/-- The run, with other diagnostics told before it. -/
def Run.behind (told : List Diagnostic) (r : Run) : Run := { r with diagnostics := told ++ r.diagnostics }

namespace State

/-- The state, with other diagnostics told before it. -/
def behind (told : List Diagnostic) (s : State) : State := { s with run := s.run.behind told }

/-- The state and the result, with other diagnostics told before. -/
def behindWith (told : List Diagnostic) (x : State × Option Bound) : State × Option Bound := (x.1.behind told, x.2)

end State

/-- Going on inside a function does the same behind other diagnostics. -/
def Descent.Deaf (descend : Descent) : Prop := ∀ told c run bounds site,
  descend c (run.behind told) bounds site =
    ((descend c run bounds site).1.behind told, (descend c run bounds site).2)

namespace State

variable (told : List Diagnostic) (s : State)

theorem tell_behind (i : InstId) (r : Remark) : (s.behind told).tell i r = (s.tell i r).behind told := by
  simp [tell, Run.tell, behind, Run.behind]

theorem foldl_behind {α : Type} {g : State → α → State} (hg : ∀ s a, g (s.behind told) a = (g s a).behind told)
    (l : List α) : l.foldl g (s.behind told) = (l.foldl g s).behind told := by
  induction l generalizing s with
  | nil => rfl
  | cons a rest ih => rw [List.foldl_cons, List.foldl_cons, hg, ih]

theorem conclude_behind (i : InstId) (o : Outcome) :
    (s.behind told).conclude i o = behindWith told (s.conclude i o) :=
  congrArg (·, o.value) (foldl_behind told s (fun s r => tell_behind told s i r) o.remarks)

theorem invalidate_behind (root : Option ValueKey) :
    (s.behind told).invalidate root = (s.invalidate root).behind told := by
  cases root <;> rfl

/-! ## 2. Instructions and calls -/

theorem forgetOverlaps_behind (m : Module) (ptr : Operand) (addr : ValueKey) :
    (s.behind told).forgetOverlaps m ptr addr = (s.forgetOverlaps m ptr addr).behind told := by
  unfold forgetOverlaps
  dsimp only
  rw [apply_ite (behind told), ← invalidate_behind]
  rfl

theorem storedValue_behind (slot : ValueKey) (value : Operand) :
    (s.behind told).storedValue slot value = behindWith told (s.storedValue slot value) := by
  unfold storedValue storeArgument
  rw [show (s.behind told).operand? = s.operand? from rfl, show (s.behind told).frame = s.frame from rfl]
  split
  · rfl
  · split
    · split <;> rfl
    · rfl

theorem store_behind (m : Module) (value : Operand) (valueTy : Ty) (ptr : Operand) :
    (s.behind told).store m value valueTy ptr = (s.store m value valueTy ptr).behind told := by
  unfold store
  rw [show (s.behind told).frame = s.frame from rfl]
  split
  · rfl
  · next addr _ =>
    rw [forgetOverlaps_behind]
    generalize s.forgetOverlaps m ptr addr = s
    have hstored := storedValue_behind told { s with frame := s.frame.addMemory (s.frame.aliases.slot addr) }
      (s.frame.aliases.slot addr) value
    dsimp only [behind] at hstored ⊢
    rw [hstored]
    rfl

theorem view_behind (i : InstId) (value : Operand) (src dst : Ty) :
    (s.behind told).view i value src dst = behindWith told (s.view i value src dst) := by
  unfold view
  rw [conclude_behind, show (s.behind told).operand? = s.operand? from rfl,
    show (s.behind told).frame = s.frame from rfl]
  split
  · split <;> rfl
  · split
    · rfl
    · split
      · split <;> rfl
      · rfl

theorem elementPtr_behind (layout : DataLayout) (i : InstId) (ty source : Ty) (base : Operand)
    (indices : List (Ty × Operand)) :
    (s.behind told).elementPtr layout i ty source base indices =
      behindWith told (s.elementPtr layout i ty source base indices) := by
  unfold elementPtr
  rw [show (s.behind told).frame = s.frame from rfl, show (s.behind told).tableIndex? = s.tableIndex? from rfl]
  split
  · rfl
  · split
    · rfl
    · dsimp only
      split
      · rw [apply_ite (behindWith told)]
        rfl
      · split <;> rfl

theorem bindVariable_behind (dbg : Option DebugBinding) (args : List (Ty × Operand)) :
    (s.behind told).bindVariable dbg args = (s.bindVariable dbg args).behind told := by
  unfold bindVariable
  rw [show (s.behind told).frame = s.frame from rfl, show (s.behind told).bounds = s.bounds from rfl]
  split
  · split
    next key i _ _ =>
      -- an address is entered as memory before the argument that waits for its slot is looked up
      have hpending : (s.frame.addMemory (s.frame.aliases.slot key)).pendingArgs = s.frame.pendingArgs := by
        unfold Frame.addMemory
        split <;> rfl
      split_ifs <;> cases hfind : s.frame.pendingArgs.find? (s.frame.aliases.slot key) <;>
        simp only [hpending, hfind] <;> rfl
    next => rfl
  · rfl

theorem clobber_behind (m : Module) (args : List (Ty × Operand)) :
    (s.behind told).clobber m args = (s.clobber m args).behind told := by
  unfold clobber
  dsimp only
  rw [apply_ite (behind told), ← invalidate_behind, ← foldl_behind told _ (invalidate_behind told)]
  rfl

theorem callExternal_behind (m : Module) (i : InstId) (callee : String) (args : List (Ty × Operand)) :
    (s.behind told).callExternal m i callee args = behindWith told (s.callExternal m i callee args) := by
  unfold callExternal
  split
  · rfl
  · dsimp only
    rw [clobber_behind, conclude_behind]
    generalize s.clobber m args = s
    rw [show (s.behind told).knownArgs = s.knownArgs from rfl]
    split <;> rfl

theorem applySummary_behind (m : Module) (callee : FuncId) (args : List (Ty × Operand)) (scope : Bounds) :
    (s.behind told).applySummary m callee args scope = (s.applySummary m callee args scope).behind told := by
  have hforget : ∀ (s : State) (p : PointerArg), (s.behind told).forgetPointee m p = (s.forgetPointee m p).behind told := by
    intro s p
    dsimp only [forgetPointee]
    rw [← invalidate_behind]
    rfl
  have hadopt : ∀ (all : List PointerArg) (s : State) (p : PointerArg),
      (s.behind told).adoptPointee callee scope all p = (s.adoptPointee callee scope all p).behind told := by
    intro all s p
    unfold adoptPointee
    dsimp only
    split_ifs
    · cases scope.get? (.arg callee p.index) <;> rfl
    · rfl
  unfold applySummary
  dsimp only
  rw [← foldl_behind told _ (hadopt _), ← foldl_behind told _ hforget]
  rfl

theorem checkRange_behind (i : InstId) (callee : Function) (result : Option Bound) :
    (s.behind told).checkRange i callee result = (s.checkRange i callee result).behind told := by
  unfold checkRange
  rw [show (s.behind told).bounds = s.bounds from rfl]
  split
  · split
    · split
      · rfl
      · exact tell_behind told s i _
    · rfl
  · rfl

theorem takeOver_behind (m : Module) (i : InstId) (d : FuncId) (g : Function) (args : List (Ty × Operand)) (run : Run)
    (summary : Summary) :
    (s.behind told).takeOver m i d g args (run.behind told, summary) =
      behindWith told (s.takeOver m i d g args (run, summary)) := by
  unfold takeOver behindWith
  dsimp only
  rw [← checkRange_behind]
  have happly := applySummary_behind told { s with run := run } m d args summary.scope
  dsimp only [behind] at happly ⊢
  rw [happly]
  rfl

variable {ctx : Context} {descend : Descent} (h : descend.Deaf)

include h

theorem summarize_behind (i : InstId) (d : FuncId) (args : List (Option Bound)) :
    (s.behind told).summarize ctx descend i d args =
      ((s.summarize ctx descend i d args).1.behind told, (s.summarize ctx descend i d args).2) := by
  unfold summarize
  rw [show (s.behind told).run = s.run.behind told from rfl, show (s.behind told).bounds = s.bounds from rfl,
    show (s.behind told).frame = s.frame from rfl, show (s.run.behind told).memo = s.run.memo from rfl]
  dsimp only
  split
  · rfl
  · rw [h]
    rfl

theorem callDefined_behind (i : InstId) (d : FuncId) (g : Function) (args : List (Ty × Operand)) :
    (s.behind told).callDefined ctx descend i d g args =
      behindWith told (s.callDefined ctx descend i d g args) := by
  have hrefusal : (s.behind told).refusal? ctx d g.name = s.refusal? ctx d g.name := rfl
  cases hs : s.refusal? ctx d g.name with
  | some remark =>
    rw [callDefined_of_refusal hs, callDefined_of_refusal (hrefusal.trans hs)]
    exact congrArg (·, none) (tell_behind told s i remark)
  | none =>
    rw [callDefined_eq_takeOver hs, callDefined_eq_takeOver (hrefusal.trans hs), summarize_behind told s h]
    exact takeOver_behind told s ctx.module i d g args _ _

theorem transfer_behind (i : InstId) (inst : Inst) :
    (s.behind told).transfer ctx descend i inst = behindWith told (s.transfer ctx descend i inst) := by
  unfold transfer
  cases inst.kind with
  | binary op lhs rhs => exact conclude_behind told s i _
  | cast op v src =>
    dsimp only
    rw [show (s.behind told).operand? = s.operand? from rfl]
    split
    · exact conclude_behind told s i _
    · rfl
  | view v src => exact view_behind told s i v src inst.ty
  | store v ty ptr ptrTy align => exact congrArg (·, none) (store_behind told s ctx.module v ty ptr)
  | elementPtr inbounds source base baseTy indices => exact elementPtr_behind told s ctx.layout i inst.ty source base indices
  | call callee args =>
    dsimp only
    unfold call
    split
    · exact congrArg (·, none) (bindVariable_behind told s inst.dbg args)
    · split
      · exact callExternal_behind told s ctx.module i callee args
      · split
        · exact callDefined_behind told s h i _ _ args
        · rfl
  | fneg | alloca | load | ret | icmp | fcmp | br | condBr | phi => rfl

theorem step_behind (i : InstId) : (s.behind told).step ctx descend i = (s.step ctx descend i).behind told := by
  cases hinst : s.frame.function.inst? i with
  | none =>
    unfold step
    rw [show (s.behind told).frame = s.frame from rfl, hinst]
  | some inst =>
    rw [step_eq_note hinst, step_eq_note (s := s.behind told) hinst, transfer_behind told s h]
    unfold note behindWith
    dsimp only
    split <;> rfl

/-! ## 3. Blocks and functions -/

omit h in
theorem tick_behind (run : Run) (limits : Limits) (name : String) :
    (run.behind told).tick limits name = ((run.tick limits name).1.behind told, (run.tick limits name).2) := by
  unfold Run.tick
  dsimp only [Run.behind]
  split
  · rfl
  · split
    · rfl
    · simp [Run.tell]

theorem steps_behind (l : List InstId) (s : State) :
    steps ctx descend l (s.behind told) =
      ((steps ctx descend l s).1.behind told, (steps ctx descend l s).2) := by
  induction l generalizing s with
  | nil => rfl
  | cons i rest ih =>
    have htick := tick_behind told s.run ctx.limits s.frame.function.name
    have hspend : (s.behind told).spend ctx = (s.spend ctx).behind told := by
      unfold spend behind
      dsimp only
      rw [htick]
    have hvisit : (s.behind told).perform ctx descend (.visit i) = (s.perform ctx descend (.visit i)).behind told :=
      (congrArg (step · ctx descend i) hspend).trans (step_behind told (s.spend ctx) h i)
    rw [steps_cons, steps_cons, hspend, hvisit, ih, show (s.behind told).run = s.run.behind told from rfl,
      show (s.behind told).frame = s.frame from rfl, htick]
    dsimp only
    split <;> rfl

omit h in
theorem enterBlock_behind (m : Module) (b : BlockId) :
    (s.behind told).enterBlock m b = (s.enterBlock m b).behind told := by
  unfold enterBlock
  rw [show (s.behind told).entryState m b = s.entryState m b from rfl]
  cases s.entryState m b <;> rfl

theorem blocks_behind (l : List Block) (b : BlockId) (s : State) :
    blocks ctx descend b l (s.behind told) = (blocks ctx descend b l s).behind told := by
  induction l generalizing b s with
  | nil => rfl
  | cons block rest ih =>
    rw [blocks_cons, blocks_cons, enterBlock_behind, steps_behind told h]
    dsimp only
    split
    · exact ih (b + 1) (perform ctx descend _ (.close b))
    · rfl

end State

/-- An activation does the same behind other diagnostics. -/
theorem analyzeWithin_behind (ctx : Context) (depth : Nat) : ∀ (told : List Diagnostic) (id : FuncId) (run : Run)
    (bounds : Bounds) (site : Option Location), analyzeWithin ctx depth id (run.behind told) bounds site =
      ((analyzeWithin ctx depth id run bounds site).1.behind told, (analyzeWithin ctx depth id run bounds site).2) := by
  induction depth with
  | zero => exact fun _ _ _ _ _ => rfl
  | succ depth ih =>
    intro told id run bounds site
    have hdeaf : (descent ctx depth).Deaf := by
      intro told c run bounds site
      unfold descent
      rw [ih]
    cases hid : ctx.module.functions[id]? with
    | none => rw [analyzeWithin_of_none hid, analyzeWithin_of_none hid]
    | some f =>
      have hstart : State.ofCall (run.behind told) id f bounds site = (State.ofCall run id f bounds site).behind told := rfl
      rw [analyzeWithin_succ hid, analyzeWithin_succ hid, hstart, State.blocks_behind told hdeaf]
      rfl

/-! ## 4. Where a run starts anew -/

/-- The run in which a function is begun: a new one if no function is active. -/
def Run.outset (r : Run) : Run := if r.stack.isEmpty then r.restart else r

/-- Go through a function, and ask at each function that is begun whether the run starts anew. -/
def analyzeFromOutset (ctx : Context) : Nat → FuncId → Run → Bounds → Option Location →
    Run × Bounds × Option (Operand × Bound)
  | 0, _, run, bounds, _ => (run.outset, bounds, none)
  | depth + 1, id, run, bounds, site =>
    match ctx.module.functions[id]? with
    | none => (run.outset, bounds, none)
    | some f =>
      let descend : Descent := fun callee run bounds site =>
        let (run, bounds, result) := analyzeFromOutset ctx depth callee run bounds site
        (run, bounds, result.map Prod.snd)
      let s := (State.blocks ctx descend 0 f.blocks (.ofCall run.outset id f bounds site)).leave ctx.module
      ({ s.run with stack := s.run.stack.drop 1 }, s.bounds, foldReturns s.frame.returns)

/-- Inside a function none is begun that would start the run anew. -/
theorem analyzeFromOutset_eq (ctx : Context) (depth : Nat) : ∀ (id : FuncId) (run : Run) (bounds : Bounds)
    (site : Option Location),
    analyzeFromOutset ctx depth id run bounds site = analyzeWithin ctx depth id run.outset bounds site := by
  induction depth with
  | zero => exact fun _ _ _ _ => rfl
  | succ depth ih =>
    intro id run bounds site
    rw [analyzeFromOutset]
    cases hid : ctx.module.functions[id]? with
    | none => rw [analyzeWithin_of_none hid]
    | some f =>
      have hagree : (descent ctx depth).AgreesAt ctx.module (⟨id, site⟩ :: run.outset.stack)
          (fun callee run bounds site =>
            let (run, bounds, result) := analyzeFromOutset ctx depth callee run bounds site
            (run, bounds, result.map Prod.snd)) := by
        intro c run' bounds' site' hstack _ _
        have hactive : run'.outset = run' := by
          unfold Run.outset
          rw [hstack]
          rfl
        simp only [ih, hactive]
        rfl
      rw [analyzeWithin_succ hid,
        State.blocks_congr hagree (grows_descent ctx depth) f.blocks 0 (.ofCall run.outset id f bounds site) rfl]

/-! ## 5. Requests one after the other -/

/-- What a run is asked for. -/
inductive Request where
  /-- Analyse a function, with a scope of its own. -/
  | analyze (id : FuncId) (bounds : Bounds)
  /-- Hand over the diagnostics. -/
  | collect

/-- The run after a request. -/
def Run.serve (ctx : Context) (run : Run) : Request → Run
  | .analyze id bounds => (analyzeFunction ctx run id bounds).1
  | .collect => { run with diagnostics := [] }

theorem stack_analyzeFunction (ctx : Context) (run : Run) (id : FuncId) (bounds : Bounds) :
    (analyzeFunction ctx run id bounds).1.stack = [] :=
  (grows_descent ctx ctx.module.functions.length id run.restart bounds none).stack

/-- Between two requests no function is active. -/
theorem stack_served (ctx : Context) (requests : List Request) (run : Run) (hrun : run.stack = []) :
    (requests.foldl (Run.serve ctx) run).stack = [] := by
  refine List.foldlRecOn (motive := fun run : Run => run.stack = []) _ _ hrun fun run hrun request _ => ?_
  cases request with
  | analyze id bounds => exact stack_analyzeFunction ctx run id bounds
  | collect => exact hrun

/-- An analysis leaves behind what it would leave alone, behind what was told before. -/
theorem analyzeFunction_eq_behind (ctx : Context) (run : Run) (id : FuncId) (bounds : Bounds) :
    analyzeFunction ctx run id bounds =
      ((analyzeFunction ctx .initial id bounds).1.behind run.diagnostics, (analyzeFunction ctx .initial id bounds).2) := by
  have hrestart : run.restart = Run.initial.restart.behind run.diagnostics := by
    simp [Run.restart, Run.initial, Run.behind]
  rw [analyzeFunction, hrestart]
  exact analyzeWithin_behind ctx _ run.diagnostics id Run.initial.restart bounds none

/-- **Analyses do not influence one another.** Whatever a run was asked for before, the analysis
of a function has the result and the final scope that it has in a new run, and tells the same
behind what is told already. No function is left active between two requests, so a run that
starts anew only where no function is active starts anew here, and at no function in between. -/
theorem analyses_independent (ctx : Context) (earlier : List Request) (id : FuncId) (bounds : Bounds) :
    let run := earlier.foldl (Run.serve ctx) .initial
    let fresh := analyzeFunction ctx .initial id bounds
    let answer := analyzeFunction ctx run id bounds
    answer.2.2 = fresh.2.2 ∧ answer.2.1 = fresh.2.1 ∧
      answer.1.diagnostics = run.diagnostics ++ fresh.1.diagnostics ∧
      run.stack = [] ∧
      analyzeFromOutset ctx ctx.module.functions.length id run bounds none = answer := by
  intro run fresh answer
  have hanswer : answer = (fresh.1.behind run.diagnostics, fresh.2) := analyzeFunction_eq_behind ctx run id bounds
  have hstack : run.stack = [] := stack_served ctx earlier .initial rfl
  refine ⟨congrArg (·.2.2) hanswer, congrArg (·.2.1) hanswer, congrArg (·.1.diagnostics) hanswer, hstack, ?_⟩
  have houtset : run.outset = run.restart := by
    unfold Run.outset
    rw [hstack]
    rfl
  rw [analyzeFromOutset_eq, houtset]
  rfl

end RangedIR
