/-
RangedIR.Proofs.Analysis.Runs — what an analysis does to its run.

An instruction tells remarks and leaves the rest of the run alone, unless it is a call that
is followed: then the run goes through another function. This is said once, of one
instruction. That a run loses nothing that was told or counted, and that any depth of
recursion does that covers all functions of the module, follow from it.
-/
import RangedIR.Proofs.Analysis.Budget

namespace RangedIR

open Remark

/-! ## 1. Remarks -/

namespace Run

/-- The number of diagnostics told with a code. -/
def told (r : Run) (code : DiagCode) : Nat := r.diagnostics.countP fun d => d.code = some code

/-- More is told in the second run, but not that the budget is used up, and nothing else
differs. -/
def Tells (r r' : Run) : Prop :=
  ∃ more : List Diagnostic, r' = { r with diagnostics := r.diagnostics ++ more } ∧
    ∀ d ∈ more, d.code ≠ some .budgetExhausted

variable {r r' r'' : Run}

theorem Tells.refl (r : Run) : r.Tells r := ⟨[], by simp, by simp⟩

theorem Tells.of_eq (h : r' = r) : r.Tells r' := h ▸ .refl r

theorem Tells.trans (h : r.Tells r') (h' : r'.Tells r'') : r.Tells r'' := by
  obtain ⟨more, rfl, hmore⟩ := h
  obtain ⟨more', rfl, hmore'⟩ := h'
  refine ⟨more ++ more', by simp, fun d hd => ?_⟩
  exact (List.mem_append.mp hd).elim (hmore d) (hmore' d)

theorem tells_tell (r : Run) {d : Diagnostic} (h : d.code ≠ some .budgetExhausted) : r.Tells (r.tell d) :=
  ⟨[d], rfl, fun _ hd => List.mem_singleton.mp hd ▸ h⟩

theorem Tells.told_budget (h : r.Tells r') : r'.told .budgetExhausted = r.told .budgetExhausted := by
  obtain ⟨more, rfl, hmore⟩ := h
  have hnone : more.countP (fun d => d.code = some .budgetExhausted) = 0 :=
    List.countP_eq_zero.mpr fun d hd => by simpa using hmore d hd
  exact List.countP_append.trans (by rw [hnone, Nat.add_zero]; rfl)

end Run

/-- An outcome does not tell that the budget is used up. -/
def Outcome.SparesBudget (o : Outcome) : Prop := ∀ r ∈ o.remarks, r.code ≠ .budgetExhausted

namespace Transfer

attribute [local simp] Outcome.SparesBudget Outcome.known Outcome.unknown Outcome.plain Outcome.refused code

variable (op : CastOp) (ty : Ty) (i : Bound)

theorem sparesBudget_binaryOn (op : BinaryOp) (a b : Bound) : (binaryOn op ty a b).SparesBudget := by
  unfold binaryOn
  dsimp only
  split_ifs
  · simp
  · simp
  · simp
  · split
    · unfold intoType
      split
      · split_ifs
        · simp
        · split <;> simp
      · simp
    · simp

theorem sparesBudget_binary (op : BinaryOp) (lookup : Operand → Option Bound) (lhs rhs : Operand) :
    (binary op ty lookup lhs rhs).SparesBudget := by
  refine List.forall_mem_append.mpr ⟨?_, ?_⟩
  · split_ifs <;> simp
  · split
    · exact sparesBudget_binaryOn ty op _ _
    · simp

theorem sparesBudget_narrow (bits : Nat) : (narrow op i bits).SparesBudget := by
  unfold narrow
  split_ifs
  · simp
  · split <;> simp

theorem sparesBudget_toUnsigned (bits : Nat) : (toUnsigned i bits).SparesBudget := by
  unfold toUnsigned
  dsimp only
  split_ifs <;> simp

theorem sparesBudget_toSingle : (toSingle i).SparesBudget := by
  unfold toSingle
  dsimp only
  split_ifs <;> simp

theorem sparesBudget_withBits {f : Nat → Outcome} (hf : ∀ bits, (f bits).SparesBudget) :
    (withBits op ty f).SparesBudget := by
  unfold withBits
  split
  · exact hf _
  · simp

theorem sparesBudget_cast (src dst : Ty) : (cast op src dst i).SparesBudget := by
  cases op with
  | sext | fpext | sitofp => simp [cast]
  | zext | uitofp => exact sparesBudget_withBits _ src (by simp)
  | trunc | fptosi => exact sparesBudget_withBits _ dst (sparesBudget_narrow _ _)
  | fptoui => exact sparesBudget_withBits _ dst (sparesBudget_toUnsigned i)
  | fptrunc => exact sparesBudget_toSingle i

end Transfer

/-! ## 2. Instructions -/

namespace State

variable {ctx : Context} {descend : Descent} {s : State}

theorem tells_conclude (s : State) (i : InstId) {o : Outcome} (h : o.SparesBudget) :
    s.run.Tells (s.conclude i o).1.run := by
  refine List.foldlRecOn (motive := fun t : State => s.run.Tells t.run) _ _ (.refl s.run) fun t ht r hr => ?_
  exact ht.trans (Run.tells_tell t.run fun hcode => h r hr (Option.some.inj hcode))

theorem tells_refused (s : State) (i : InstId) {r : Remark} (h : r.code ≠ .budgetExhausted) :
    s.run.Tells (s.conclude i (.refused r)).1.run :=
  tells_conclude s i fun _ hr => List.mem_singleton.mp hr ▸ h

/-- Everything may be changed but the run. -/
def Licence.silent : Licence := { Licence.all with tells := False, calls := False }

theorem Licence.Admits.silent {id : FuncId} {key : ValueKey} : Licence.silent.Admits id key :=
  ⟨trivial, fun _ => trivial, trivial, trivial⟩

theorem tells_view (s : State) (i : InstId) (value : Operand) (src dst : Ty) :
    s.run.Tells (s.view i value src dst).1.run := by
  unfold view
  split
  · split <;> exact .refl _
  · split
    · exact .refl _
    · split
      · split
        · exact .refl _
        · exact tells_refused s i (by simp [code])
      · exact tells_refused s i (by simp [code])

theorem tells_callExternal (s : State) (m : Module) (i : InstId) (callee : String) (args : List (Ty × Operand)) :
    s.run.Tells (s.callExternal m i callee args).1.run := by
  unfold callExternal
  split
  · exact .refl _
  · have hclobber := (changes_clobber (p := .none) s m args).run id id
    dsimp only
    split
    · exact .of_eq hclobber
    · exact (Run.Tells.of_eq hclobber).trans (tells_refused _ i (by simp [code]))

theorem tells_checkRange (s : State) (i : InstId) (callee : Function) (result : Option Bound) :
    s.run.Tells (s.checkRange i callee result).run := by
  unfold checkRange
  split
  · split
    · split
      · exact .refl _
      · exact Run.tells_tell _ (by simp [diagnostic, code])
    · exact .refl _
  · exact .refl _

/-- The function that an instruction calls and the arguments, if the call is followed. -/
def follows? (s : State) (ctx : Context) (i : InstId) : Option (FuncId × List (Ty × Operand)) :=
  match s.frame.function.kind? i with
  | some (.call callee args) =>
    if Scope.isDebugName callee then none
    else
      (ctx.module.functionNamed? callee).bind fun d => ctx.module.functions[d]?.bind fun g =>
        if (s.refusal? ctx d g.name).isNone then some (d, args) else none
  | _ => none

/-- A call that is followed is one of a function of the module that is not active, and the
calls are not nested too deep. -/
theorem follows?_spec {i : InstId} {d : FuncId} {args : List (Ty × Operand)} (h : s.follows? ctx i = some (d, args)) :
    (∃ g, ctx.module.functions[d]? = some g ∧ s.refusal? ctx d g.name = none) ∧ s.run.isActive d = false ∧
      s.run.stack.length < ctx.limits.maxCallDepth := by
  unfold follows? at h
  split at h
  · split_ifs at h
    obtain ⟨d', -, h⟩ := Option.bind_eq_some_iff.mp h
    obtain ⟨g, hg, h⟩ := Option.bind_eq_some_iff.mp h
    split_ifs at h with hrefusal
    cases h
    rw [Option.isNone_iff_eq_none] at hrefusal
    refine ⟨⟨g, hg, hrefusal⟩, isActive_of_refusal? hrefusal, ?_⟩
    unfold refusal? at hrefusal
    split_ifs at hrefusal with _ hdepth
    omega
  · cases h

/-- A call of a defined function that is followed ends with the run that its summary comes
with, and one that is not is told. -/
theorem run_callDefined (s : State) (ctx : Context) (descend : Descent) (i : InstId) (d : FuncId) (g : Function)
    (args : List (Ty × Operand)) :
    (if (s.refusal? ctx d g.name).isNone then (s.summarize ctx descend i d (s.argBounds args)).1 else s.run).Tells
      (s.callDefined ctx descend i d g args).1.run := by
  cases hrefusal : s.refusal? ctx d g.name with
  | some remark =>
    rw [callDefined_of_refusal hrefusal]
    refine Run.tells_tell s.run ?_
    unfold refusal? at hrefusal
    split_ifs at hrefusal <;> cases hrefusal <;> simp [diagnostic, code]
  | none =>
    rw [Option.isNone_none, if_pos rfl]
    unfold callDefined
    rw [hrefusal]
    refine Run.Tells.trans (.of_eq ?_) (tells_checkRange _ i g _)
    exact (applySummary_keeps _ ctx.module d args _).1

/-- An instruction tells something, or it is a call that is followed and then tells
something. -/
theorem run_transfer (s : State) (ctx : Context) (descend : Descent) {i : InstId} {inst : Inst}
    (hinst : s.frame.function.inst? i = some inst) :
    ((s.follows? ctx i).elim s.run fun call => (s.summarize ctx descend i call.1 (s.argBounds call.2)).1).Tells
      (s.transfer ctx descend i inst).1.run := by
  have hkind : s.frame.function.kind? i = some inst.kind := by rw [Function.kind?, hinst]; rfl
  unfold follows? transfer
  rw [hkind]
  cases inst.kind with
  | binary op lhs rhs => exact tells_conclude s i (Transfer.sparesBudget_binary _ _ _ _ _)
  | cast op v src =>
    dsimp only
    split
    · exact tells_conclude s i (Transfer.sparesBudget_cast _ _ _ _)
    · exact .refl _
  | view v src => exact tells_view s i v src inst.ty
  | store v ty ptr ptrTy align => exact .of_eq ((changes_store (p := .silent) ctx.module v ty fun _ _ => .silent).run id id)
  | elementPtr inbounds source base baseTy indices =>
    exact .of_eq ((changes_elementPtr (p := .silent) ctx.layout inst.ty source indices trivial trivial fun _ _ => trivial).run
      id id)
  | call callee args =>
    dsimp only
    unfold call
    split_ifs with hdebug
    · exact .of_eq ((changes_bindVariable (p := .silent) fun _ _ _ _ _ _ _ _ _ _ => .silent).run id id)
    · cases ctx.module.functionNamed? callee with
      | none => exact tells_callExternal s ctx.module i callee args
      | some d =>
        dsimp only [Option.bind_some]
        cases ctx.module.functions[d]? with
        | none => exact .refl _
        | some g =>
          have hcall := run_callDefined s ctx descend i d g args
          dsimp only [Option.bind_some]
          cases hrefusal : s.refusal? ctx d g.name <;> simpa [hrefusal] using hcall
  | ret v => exact .refl _
  | fneg | alloca | load | icmp | fcmp | br | condBr | phi => exact .refl _

theorem run_step (s : State) (ctx : Context) (descend : Descent) (i : InstId) :
    ((s.follows? ctx i).elim s.run fun call => (s.summarize ctx descend i call.1 (s.argBounds call.2)).1).Tells
      (s.step ctx descend i).run := by
  unfold step
  cases hinst : s.frame.function.inst? i with
  | none =>
    have hnone : s.follows? ctx i = none := by simp [follows?, Function.kind?, hinst]
    rw [hnone]
    exact .refl _
  | some inst =>
    have htransfer := run_transfer s ctx descend hinst
    dsimp only
    split <;> exact htransfer

end State

/-! ## 3. Runs that grow -/

/-- The second run is at the same depth of calls, and nothing that was told or counted in
the first is lost. -/
structure Run.Grows (r r' : Run) : Prop where
  stack : r'.stack = r.stack
  visits : r.visits ≤ r'.visits
  diagnostics : r.diagnostics <+: r'.diagnostics

/-- Going on inside a function makes runs grow. -/
def Descent.Grows (descend : Descent) : Prop :=
  ∀ (c : FuncId) (run : Run) (bounds : Bounds) (site : Option Location), run.Grows (descend c run bounds site).1

namespace Run

variable {r r' r'' : Run}

theorem Grows.refl (r : Run) : r.Grows r := ⟨rfl, le_rfl, List.prefix_rfl⟩

theorem Grows.trans (h : r.Grows r') (h' : r'.Grows r'') : r.Grows r'' :=
  ⟨h'.stack.trans h.stack, h.visits.trans h'.visits, h.diagnostics.trans h'.diagnostics⟩

theorem Grows.told (h : r.Grows r') (code : DiagCode) : r.told code ≤ r'.told code :=
  h.diagnostics.sublist.countP_le

theorem Tells.grows (h : r.Tells r') : r.Grows r' := by
  obtain ⟨more, rfl, -⟩ := h
  exact ⟨rfl, le_rfl, List.prefix_append _ more⟩

theorem grows_tick (r : Run) (limits : Limits) (name : String) : r.Grows (r.tick limits name).1 := by
  unfold tick
  dsimp only
  split_ifs
  · exact ⟨rfl, Nat.le_succ _, List.prefix_rfl⟩
  · exact ⟨rfl, Nat.le_succ _, List.prefix_rfl⟩
  · exact ⟨rfl, Nat.le_succ _, List.prefix_append _ _⟩

end Run

namespace State

variable {ctx : Context} {descend : Descent}

theorem grows_summarize (ctx : Context) (h : descend.Grows) (s : State) (i : InstId) (d : FuncId) (args : List (Option Bound)) :
    s.run.Grows (s.summarize ctx descend i d args).1 := by
  unfold summarize
  dsimp only
  split
  · exact .refl _
  · obtain ⟨hstack, hvisits, hdiagnostics⟩ := h d s.run (calleeScope s.bounds d args) (some (s.frame.location i))
    exact ⟨hstack, hvisits, hdiagnostics⟩

theorem grows_step (ctx : Context) (h : descend.Grows) (s : State) (i : InstId) : s.run.Grows (s.step ctx descend i).run := by
  have hstep := (run_step s ctx descend i).grows
  cases hfollows : s.follows? ctx i with
  | none => rwa [hfollows] at hstep
  | some call =>
    rw [hfollows] at hstep
    exact (grows_summarize ctx h s i call.1 (s.argBounds call.2)).trans hstep

theorem grows_visit (ctx : Context) (h : descend.Grows) (s : State) (i : InstId) :
    s.run.Grows (s.perform ctx descend (.visit i)).run :=
  (s.run.grows_tick ctx.limits s.frame.function.name).trans (grows_step ctx h (s.spend ctx) i)

theorem grows_steps (ctx : Context) (h : descend.Grows) (l : List InstId) :
    ∀ s : State, s.run.Grows (steps ctx descend l s).1.run := by
  induction l with
  | nil => exact fun s => .refl s.run
  | cons i rest ih =>
    intro s
    rw [steps_cons]
    split
    · exact (grows_visit ctx h s i).trans (ih _)
    · exact s.run.grows_tick ctx.limits s.frame.function.name

theorem blocks_cons (b : BlockId) (block : Block) (rest : List Block) (s : State) :
    blocks ctx descend b (block :: rest) s =
      let closing := steps ctx descend block.insts (s.enterBlock ctx.module b)
      if closing.2 then blocks ctx descend (b + 1) rest (closing.1.perform ctx descend (.close b)) else closing.1 := rfl

theorem blocks_of_go {b : BlockId} {block : Block} {s : State}
    (hgo : (steps ctx descend block.insts (s.enterBlock ctx.module b)).2 = true) (rest : List Block) :
    blocks ctx descend b (block :: rest) s = blocks ctx descend (b + 1) rest
      ((steps ctx descend block.insts (s.enterBlock ctx.module b)).1.perform ctx descend (.close b)) :=
  (blocks_cons b block rest s).trans (if_pos hgo)

theorem grows_blocks (ctx : Context) (h : descend.Grows) (l : List Block) (b : BlockId) (s : State) :
    s.run.Grows (blocks ctx descend b l s).run :=
  blocks_induction (P := fun t => s.run.Grows t.run) (fun t b ht => by rwa [run_enterBlock])
    (fun t ht => ht.trans (t.run.grows_tick _ _)) (fun _ _ ht => ht) l b s (fun t ht i _ => ht.trans (grows_step ctx h t i))
    (.refl _)

end State

theorem analyzeWithin_of_none {ctx : Context} {id : FuncId} (hid : ctx.module.functions[id]? = none) (depth : Nat)
    (run : Run) (bounds : Bounds) (site : Option Location) :
    analyzeWithin ctx depth id run bounds site = (run, bounds, none) := by
  cases depth with
  | zero => rfl
  | succ depth => rw [analyzeWithin, hid]

/-- An activation leaves the calls nested as they were, and the run has grown. -/
theorem grows_descent (ctx : Context) (depth : Nat) : (descent ctx depth).Grows := by
  induction depth with
  | zero => exact fun _ run _ _ => .refl run
  | succ depth ih =>
    intro id run bounds site
    unfold descent
    cases hid : ctx.module.functions[id]? with
    | none =>
      rw [analyzeWithin_of_none hid]
      exact .refl run
    | some f =>
      rw [analyzeWithin_succ hid]
      have hblocks := State.grows_blocks ctx ih f.blocks 0 (.ofCall run id f bounds site)
      refine ⟨?_, hblocks.visits, hblocks.diagnostics⟩
      exact congrArg (List.drop 1) hblocks.stack

/-! ## 4. Depth -/

/-- A function is begun: no function is active twice, it is not active itself, and the depth
covers the functions that are not. -/
structure Run.Begins (m : Module) (depth : Nat) (id : FuncId) (r : Run) : Prop where
  nodup : (id :: r.stack.map (·.function)).Nodup
  defined : ∀ a ∈ r.stack, a.function < m.functions.length
  covers : m.functions.length ≤ depth + r.stack.length

namespace Run.Begins

variable {m : Module} {depth : Nat} {id d : FuncId} {r : Run}

theorem pos (h : r.Begins m depth id) (hid : id < m.functions.length) : 0 < depth := by
  have hsub : id :: r.stack.map (·.function) ⊆ List.range m.functions.length := by
    intro c hc
    rw [List.mem_range]
    rcases List.mem_cons.mp hc with rfl | hc
    · exact hid
    · obtain ⟨a, ha, rfl⟩ := List.mem_map.mp hc
      exact h.defined a ha
  have hlength := (List.subperm_of_subset h.nodup hsub).length_le
  rw [List.length_cons, List.length_map, List.length_range] at hlength
  have hcovers := h.covers
  omega

/-- A call to a function that is not active is begun one level down. -/
theorem call (h : r.Begins m (depth + 1) id) (hid : id < m.functions.length) {site : Option Location} {r' : Run}
    (hstack : r'.stack = ⟨id, site⟩ :: r.stack) (hactive : r'.isActive d = false) : r'.Begins m depth d := by
  have hnot : d ∉ r'.stack.map (·.function) := by
    rw [Run.isActive, List.any_eq_false] at hactive
    intro hd
    obtain ⟨a, ha, rfl⟩ := List.mem_map.mp hd
    simpa using hactive a ha
  rw [hstack] at hnot
  refine ⟨?_, fun a ha => ?_, ?_⟩
  · rw [hstack]
    exact List.nodup_cons.mpr ⟨hnot, h.nodup⟩
  · rw [hstack] at ha
    rcases List.mem_cons.mp ha with rfl | ha
    · exact hid
    · exact h.defined a ha
  · have hcovers := h.covers
    rw [hstack, List.length_cons]
    omega

end Run.Begins

theorem Run.begins_restart (m : Module) (run : Run) (id : FuncId) {depth : Nat} (h : m.functions.length ≤ depth) :
    run.restart.Begins m depth id :=
  ⟨List.nodup_singleton id, by simp [restart, initial], h⟩

/-- Two ways of going on inside functions agree on the calls that are followed at a depth of
calls. -/
def Descent.AgreesAt (m : Module) (stack : List Activation) (d d' : Descent) : Prop :=
  ∀ c run bounds site, run.stack = stack → run.isActive c = false → c < m.functions.length →
    d c run bounds site = d' c run bounds site

namespace State

variable {ctx : Context} {stack : List Activation} {d d' : Descent}

theorem callDefined_congr (h : d.AgreesAt ctx.module stack d') {s : State} (hs : s.run.stack = stack) {c : FuncId}
    {g : Function} (hg : ctx.module.functions[c]? = some g) (i : InstId) (args : List (Ty × Operand)) :
    s.callDefined ctx d i c g args = s.callDefined ctx d' i c g args := by
  cases hrefusal : s.refusal? ctx c g.name with
  | some remark => rw [callDefined_of_refusal hrefusal, callDefined_of_refusal hrefusal]
  | none =>
    have hsame : ∀ known, s.summarize ctx d i c known = s.summarize ctx d' i c known := by
      intro known
      unfold summarize
      rw [h c s.run _ _ hs (isActive_of_refusal? hrefusal) (List.getElem?_eq_some_iff.mp hg).1]
    unfold callDefined
    simp only [hrefusal, hsame]

theorem step_congr (h : d.AgreesAt ctx.module stack d') {s : State} (hs : s.run.stack = stack) (i : InstId) :
    s.step ctx d i = s.step ctx d' i := by
  have htransfer : ∀ inst, s.transfer ctx d i inst = s.transfer ctx d' i inst := by
    intro inst
    unfold transfer
    split <;> try rfl
    unfold call
    split
    · rfl
    · split
      · rfl
      · split
        · next g hg => exact callDefined_congr h hs hg i _
        · rfl
  unfold step
  simp only [htransfer]

theorem steps_congr (h : d.AgreesAt ctx.module stack d') (hgrows : d.Grows) (l : List InstId) :
    ∀ s : State, s.run.stack = stack → steps ctx d l s = steps ctx d' l s := by
  induction l with
  | nil => exact fun _ _ => rfl
  | cons i rest ih =>
    intro s hs
    have hvisit : s.perform ctx d (.visit i) = s.perform ctx d' (.visit i) :=
      step_congr h ((s.run.grows_tick ctx.limits s.frame.function.name).stack.trans hs) i
    rw [steps_cons, steps_cons, ih _ ((grows_visit ctx hgrows s i).stack.trans hs), hvisit]

theorem blocks_congr (h : d.AgreesAt ctx.module stack d') (hgrows : d.Grows) (l : List Block) :
    ∀ (b : BlockId) (s : State), s.run.stack = stack → blocks ctx d b l s = blocks ctx d' b l s := by
  induction l with
  | nil => exact fun _ _ _ => rfl
  | cons block rest ih =>
    intro b s hs
    have henter : (s.enterBlock ctx.module b).run.stack = stack := by rwa [run_enterBlock]
    have hsteps := grows_steps ctx hgrows block.insts (s.enterBlock ctx.module b)
    rw [blocks_cons, blocks_cons, ← steps_congr h hgrows block.insts _ henter]
    dsimp only
    split
    · exact ih _ _ (hsteps.stack.trans henter)
    · rfl

end State

/-- Any two depths that cover the functions of the module lead to the same analysis. -/
theorem analyzeWithin_depth (ctx : Context) (n : Nat) :
    ∀ {n' : Nat} {id : FuncId} {run : Run}, run.Begins ctx.module n id → run.Begins ctx.module n' id →
      ∀ bounds site, analyzeWithin ctx n id run bounds site = analyzeWithin ctx n' id run bounds site := by
  induction n with
  | zero =>
    intro n' id run h h' bounds site
    have hid : ctx.module.functions[id]? = none :=
      List.getElem?_eq_none (Nat.le_of_not_lt fun hlt => absurd (h.pos hlt) (lt_irrefl 0))
    rw [analyzeWithin_of_none hid, analyzeWithin_of_none hid]
  | succ n ih =>
    intro n' id run h h' bounds site
    cases hid : ctx.module.functions[id]? with
    | none => rw [analyzeWithin_of_none hid, analyzeWithin_of_none hid]
    | some f =>
      have hlt : id < ctx.module.functions.length := (List.getElem?_eq_some_iff.mp hid).1
      obtain ⟨n', rfl⟩ := Nat.exists_eq_succ_of_ne_zero (h'.pos hlt).ne'
      have hagree : (descent ctx n).AgreesAt ctx.module (⟨id, site⟩ :: run.stack) (descent ctx n') := by
        intro c run' bounds' site' hstack hactive _
        unfold descent
        rw [ih (h.call hlt hstack hactive) (h'.call hlt hstack hactive)]
      rw [analyzeWithin_succ hid, analyzeWithin_succ hid,
        State.blocks_congr hagree (grows_descent ctx n) f.blocks 0 (.ofCall run id f bounds site) rfl]

end RangedIR
