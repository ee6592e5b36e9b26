/-
RangedIR.Proofs.Analysis.Budget — analyses that are cut by the budget.

When the budget is used up, a function is left in the middle of its script. What is known
of its result then comes from the returns that were looked at before the cut, whether or not
there are others behind it.
-/
import RangedIR.Proofs.Analysis.Record

namespace RangedIR

/-! ## 1. Returns -/

namespace State

variable {ctx : Context} {descend : Descent}

/-- What a return yields: the operand and its interval, if there is one and it is known. -/
def returnedValue? (s : State) (value : Option (Ty × Operand)) : Option (Operand × Bound) :=
  value.bind fun v => (s.operand? v.2).map fun i => (v.2, i)

/-- What the returns among some actions yield. -/
def returnsOf (ctx : Context) (descend : Descent) : List Action → State → List (Option (Operand × Bound))
  | [], _ => []
  | a :: rest, s =>
    (match a.inst?.bind s.frame.function.kind? with
      | some (.ret v) => [s.returnedValue? v]
      | _ => []) ++ returnsOf ctx descend rest (s.perform ctx descend a)

theorem body_step (s : State) {i : InstId} (hret : ∀ v, s.frame.function.kind? i ≠ some (.ret v)) :
    (s.step ctx descend i).frame.body = s.frame.body := by
  unfold step
  split
  · rfl
  · next inst hinst =>
    have htransfer := @body_transfer s ctx descend i inst fun v hv =>
      hret v (by rw [Function.kind?, hinst, Option.map_some, hv])
    dsimp only
    split <;> exact htransfer

/-- A return is noted, and nothing else happens. -/
theorem step_ret {s : State} {i : InstId} {v : Option (Ty × Operand)}
    (hkind : s.frame.function.kind? i = some (.ret v)) :
    s.step ctx descend i = { s with frame := { s.frame with returns := s.frame.returns ++ [s.returnedValue? v] } } := by
  obtain ⟨inst, hinst, hv⟩ := Option.map_eq_some_iff.mp hkind
  unfold step
  rw [hinst]
  dsimp only
  unfold transfer
  rw [hv]
  rfl

/-- An action goes on in the same function, and notes a return if it is one. -/
theorem returns_perform (s : State) (a : Action) :
    (s.perform ctx descend a).frame.function = s.frame.function ∧
      (s.perform ctx descend a).frame.returns = s.frame.returns ++
        match a.inst?.bind s.frame.function.kind? with
        | some (.ret v) => [s.returnedValue? v]
        | _ => [] := by
  cases a with
  | enter b =>
    have hrecord := record_enterBlock s ctx.module b
    exact ⟨congrArg (·.body.function) hrecord, (congrArg (·.body.returns) hrecord).trans (List.append_nil _).symm⟩
  | close b => exact ⟨rfl, by simp [Action.inst?, perform]⟩
  | visit i =>
    by_cases hret : ∃ v, s.frame.function.kind? i = some (.ret v)
    · obtain ⟨v, hv⟩ := hret
      have hstep : s.perform ctx descend (.visit i) = _ := @step_ret ctx descend (s.spend ctx) i v hv
      rw [hstep]
      simp only [Action.inst?, Option.bind_some, hv]
      exact ⟨rfl, rfl⟩
    · have hbody : (s.perform ctx descend (.visit i)).frame.body = s.frame.body :=
        body_step (s.spend ctx) (not_exists.mp hret)
      refine ⟨congrArg Frame.Body.function hbody, (congrArg Frame.Body.returns hbody).trans ?_⟩
      simp only [Action.inst?, Option.bind_some]
      split
      · next v hv => exact absurd ⟨v, hv⟩ hret
      · exact (List.append_nil _).symm

/-- The values returned are those of the returns that were looked at. -/
theorem returns_performAll (l : List Action) :
    ∀ s : State, (performAll ctx descend l s).frame.returns = s.frame.returns ++ returnsOf ctx descend l s := by
  induction l with
  | nil => exact fun s => (List.append_nil _).symm
  | cons a rest ih =>
    intro s
    rw [performAll_cons, ih, (returns_perform s a).2, List.append_assoc]
    rfl

theorem mem_returnsOf {x : Option (Operand × Bound)} (l : List Action) :
    ∀ s : State, x ∈ returnsOf ctx descend l s ↔
      ∃ before i behind v, l = before ++ .visit i :: behind ∧ s.frame.function.kind? i = some (.ret v) ∧
        x = (performAll ctx descend before s).returnedValue? v := by
  induction l with
  | nil => simp [returnsOf]
  | cons a rest ih =>
    intro s
    rw [returnsOf, List.mem_append, ih, (returns_perform s a).1]
    constructor
    · rintro (hx | ⟨before, i, behind, v, rfl, hv, hx⟩)
      · split at hx
        · next v hv =>
          obtain ⟨i, hi, hv⟩ := Option.bind_eq_some_iff.mp hv
          obtain rfl : a = .visit i := by
            cases a <;> simp_all [Action.inst?]
          exact ⟨[], i, rest, v, rfl, hv, List.mem_singleton.mp hx⟩
        · cases hx
      · exact ⟨a :: before, i, behind, v, rfl, hv, hx⟩
    · rintro ⟨before, i, behind, v, hl, hv, hx⟩
      cases before with
      | nil =>
        obtain ⟨rfl, rfl⟩ := List.cons.inj hl
        left
        simp only [Action.inst?, Option.bind_some, hv]
        exact List.mem_singleton.mpr hx
      | cons a' before =>
        obtain ⟨rfl, rfl⟩ := List.cons.inj hl
        exact Or.inr ⟨before, i, behind, v, rfl, hv, hx⟩

end State

theorem mapM_id_eq_none {α : Type} (l : List (Option α)) : l.mapM id = none ↔ none ∈ l := by
  induction l with
  | nil => simp
  | cons x rest ih =>
    cases x with
    | none => simp
    | some x =>
      cases hrest : rest.mapM id with
      | none => simp [hrest, ih.mp hrest]
      | some known => simp [hrest, ← ih]

/-- Nothing is known of the result exactly if nothing was returned or one of the values
returned is not known. -/
theorem foldReturns_eq_none (l : List (Option (Operand × Bound))) : foldReturns l = none ↔ l = [] ∨ none ∈ l := by
  unfold foldReturns
  cases hknown : l.mapM id with
  | none => simp [(mapM_id_eq_none l).mp hknown]
  | some known =>
    have hnone : none ∉ l := fun hmem => by
      rw [(mapM_id_eq_none l).mpr hmem] at hknown
      cases hknown
    cases known with
    | nil =>
      have hnil : l = [] := by
        cases l with
        | nil => rfl
        | cons x rest =>
          rw [List.mapM_cons] at hknown
          cases x with
          | none => cases hknown
          | some x =>
            cases hrest : rest.mapM id with
            | none => simp [hrest] at hknown
            | some known => simp [hrest] at hknown
      simp [hnil]
    | cons x rest =>
      have hcons : l ≠ [] := by
        rintro rfl
        cases hknown
      simp [Interval.hullOf, hcons, hnone, List.getLast?_cons]

/-! ## 2. Cuts -/

namespace State

variable {ctx : Context} {descend : Descent}

/-- The budget lasts for actions one after the other. -/
def Lasts (ctx : Context) (descend : Descent) : List Action → State → Prop
  | [], _ => True
  | a :: rest, s =>
    (∀ i, a = .visit i → s.run.visits < ctx.limits.maxVisits) ∧ Lasts ctx descend rest (s.perform ctx descend a)

theorem lasts_append {l r : List Action} : ∀ {s : State},
    Lasts ctx descend (l ++ r) s ↔ Lasts ctx descend l s ∧ Lasts ctx descend r (performAll ctx descend l s) := by
  induction l with
  | nil => exact (iff_of_eq (true_and _)).symm
  | cons a rest ih => exact (and_congr_right fun _ => ih).trans and_assoc.symm

/-- An activation that begins in a state is cut by the budget in front of an instruction:
the budget lasts for the actions before it and not for the instruction itself. -/
structure CutAt (ctx : Context) (descend : Descent) (start : State) (done : List Action) (i : InstId) : Prop where
  script : ∃ rest, start.frame.function.script = done ++ .visit i :: rest
  lasted : Lasts ctx descend done start
  spent : ctx.limits.maxVisits ≤ (performAll ctx descend done start).run.visits

theorem tick_of_le {r : Run} {limits : Limits} (h : limits.maxVisits ≤ r.visits) (name : String) :
    (r.tick limits name).2 = false ∧ limits.maxVisits < (r.tick limits name).1.visits := by
  unfold Run.tick
  dsimp only
  rw [if_neg (by omega)]
  split_ifs
  · exact ⟨rfl, Nat.lt_succ_of_le h⟩
  · exact ⟨rfl, Nat.lt_succ_of_le h⟩

theorem steps_of_lasts (l : List InstId) : ∀ s : State, Lasts ctx descend (l.map .visit) s →
    steps ctx descend l s = (performAll ctx descend (l.map .visit) s, true) := by
  induction l with
  | nil => exact fun _ _ => rfl
  | cons i rest ih =>
    intro s hlasts
    rw [steps_cons, if_pos (tick_of_lt (hlasts.1 i rfl) _)]
    exact ih _ hlasts.2

theorem steps_of_cut (i : InstId) (rest l : List InstId) : ∀ s : State,
    Lasts ctx descend (l.map .visit) s →
    ctx.limits.maxVisits ≤ (performAll ctx descend (l.map .visit) s).run.visits →
    steps ctx descend (l ++ i :: rest) s = ((performAll ctx descend (l.map .visit) s).spend ctx, false) := by
  induction l with
  | nil =>
    intro s _ hspent
    have hspent : ctx.limits.maxVisits ≤ s.run.visits := hspent
    rw [List.nil_append, steps_cons, if_neg (by simp [(tick_of_le hspent _).1])]
    rfl
  | cons j l ih =>
    intro s hlasts hspent
    rw [List.cons_append, steps_cons, if_pos (tick_of_lt (hlasts.1 j rfl) _)]
    exact ih _ hlasts.2 hspent

/-- A beginning of the script of a block, in front of an instruction, is a beginning of the
block. -/
theorem split_blockScript {b : BlockId} {block : Block} {done rest : List Action} {i : InstId}
    (h : Function.blockScript b block = done ++ .visit i :: rest) :
    ∃ l r, block.insts = l ++ i :: r ∧ done = .enter b :: l.map .visit := by
  unfold Function.blockScript at h
  cases done with
  | nil => cases (List.cons.inj h).1
  | cons a done =>
    obtain ⟨rfl, htail⟩ := List.cons.inj h
    rcases List.append_eq_append_iff.mp htail with ⟨l, -, hclose⟩ | ⟨l, hmap, hrest⟩
    · -- the instruction would stand behind the end of the block
      cases l with
      | nil => cases (List.cons.inj hclose).1
      | cons a l => simp at hclose
    · cases l with
      | nil => cases (List.cons.inj hrest).1
      | cons a l =>
        obtain ⟨rfl, -⟩ := List.cons.inj hrest
        obtain ⟨l₁, l₂, hinsts, hdone, hbehind⟩ := List.map_eq_append_iff.mp hmap
        obtain ⟨j, r, rfl, hj, -⟩ := List.map_eq_cons_iff.mp hbehind
        cases hj
        exact ⟨l₁, r, hinsts, by rw [hdone]⟩

/-- Where the budget is used up, the blocks are left. -/
theorem blocks_of_cut {i : InstId} {rest : List Action} (l : List Block) : ∀ (b : BlockId) (done : List Action)
    (s : State), Function.scriptFrom b l = done ++ .visit i :: rest → Lasts ctx descend done s →
    ctx.limits.maxVisits ≤ (performAll ctx descend done s).run.visits →
    blocks ctx descend b l s = (performAll ctx descend done s).spend ctx := by
  induction l with
  | nil =>
    intro b done s hscript
    simp [Function.scriptFrom] at hscript
  | cons block l ih =>
    intro b done s hscript hlasts hspent
    rw [Function.scriptFrom_cons] at hscript
    unfold blocks
    rcases List.append_eq_append_iff.mp hscript with ⟨done', rfl, hlater'⟩ | ⟨tail, hblock, htail⟩
    · -- the block is gone through
      rw [performAll_append] at hspent
      rw [performAll_append]
      obtain ⟨hlasts, hlater⟩ := lasts_append.mp hlasts
      rw [Function.blockScript, List.cons_append, performAll_cons, performAll_append] at hspent hlater ⊢
      obtain ⟨-, hlasts⟩ := hlasts
      have hsteps := steps_of_lasts block.insts _ (lasts_append.mp hlasts).1
      change steps ctx descend block.insts (s.enterBlock ctx.module b) = _ at hsteps
      rw [hsteps]
      exact ih (b + 1) done' _ hlater' hlater hspent
    · -- it is left in the middle
      cases tail with
      | nil => exact absurd htail.symm (by
          cases l with
          | nil => simp [Function.scriptFrom]
          | cons next l => simp [Function.scriptFrom_cons, Function.blockScript])
      | cons a tail =>
        obtain ⟨rfl, -⟩ := List.cons.inj htail
        obtain ⟨l₁, r, hinsts, rfl⟩ := split_blockScript hblock
        rw [performAll_cons] at hspent ⊢
        have hsteps := steps_of_cut i r l₁ _ hlasts.2 hspent
        rw [← hinsts] at hsteps
        change steps ctx descend block.insts (s.enterBlock ctx.module b) = _ at hsteps
        rw [hsteps]
        rfl

/-! ## 3. Results -/

/-- Among the actions no return was looked at, or one that was looked at yields nothing
known. -/
def ReturnsNothing (ctx : Context) (descend : Descent) (start : State) (done : List Action) : Prop :=
  (∀ i v, .visit i ∈ done → start.frame.function.kind? i ≠ some (.ret v)) ∨
    ∃ before i behind v, done = before ++ .visit i :: behind ∧ start.frame.function.kind? i = some (.ret v) ∧
      (performAll ctx descend before start).returnedValue? v = none

theorem returnsOf_iff (start : State) (done : List Action) :
    (returnsOf ctx descend done start = [] ∨ none ∈ returnsOf ctx descend done start) ↔
      start.ReturnsNothing ctx descend done := by
  refine or_congr ?_ ?_
  · rw [List.eq_nil_iff_forall_not_mem]
    constructor
    · intro h i v hi hv
      obtain ⟨before, behind, hdone⟩ := List.append_of_mem hi
      exact h _ ((mem_returnsOf done start).mpr ⟨before, i, behind, v, hdone, hv, rfl⟩)
    · intro h x hx
      obtain ⟨before, i, behind, v, hdone, hv, -⟩ := (mem_returnsOf done start).mp hx
      exact h i v (by simp [hdone]) hv
  · rw [mem_returnsOf]
    simp only [eq_comm (a := (none : Option (Operand × Bound)))]

/-- The result of an activation that is cut, and the budget behind it. -/
theorem analyzeWithin_of_cut {ctx : Context} {depth : Nat} {id : FuncId} {f : Function} {run : Run} {bounds : Bounds}
    {site : Option Location} (hid : ctx.module.functions[id]? = some f) {done : List Action} {i : InstId}
    (hcut : (ofCall run id f bounds site).CutAt ctx (descent ctx depth) done i) :
    ((analyzeWithin ctx (depth + 1) id run bounds site).2.2 = none ↔
      (ofCall run id f bounds site).ReturnsNothing ctx (descent ctx depth) done) ∧
      ctx.limits.maxVisits < (analyzeWithin ctx (depth + 1) id run bounds site).1.visits := by
  obtain ⟨⟨rest, hscript⟩, hlasts, hspent⟩ := hcut
  rw [analyzeWithin_succ hid]
  have hblocks := blocks_of_cut f.blocks 0 done _ hscript hlasts hspent
  dsimp only
  rw [hblocks]
  refine ⟨?_, (tick_of_le hspent _).2⟩
  have hreturns : (((performAll ctx (descent ctx depth) done (ofCall run id f bounds site)).spend ctx).leave
      ctx.module).frame.returns = returnsOf ctx (descent ctx depth) done (ofCall run id f bounds site) :=
    (returns_performAll done _).trans (List.nil_append _)
  rw [hreturns, foldReturns_eq_none, returnsOf_iff]

theorem checkRange_visits (s : State) (i : InstId) (callee : Function) (result : Option Bound) :
    (s.checkRange i callee result).run.visits = s.run.visits := by
  unfold checkRange
  split
  · split
    · split_ifs <;> rfl
    · rfl
  · rfl

/-- A call that is followed and not taken from an earlier one yields what the function that
is called yields, and counts what was looked at there. -/
theorem callDefined_of_new {s : State} {d : FuncId} {g : Function} {args : List (Ty × Operand)}
    (hfollowed : s.refusal? ctx d g.name = none)
    (hnew : ctx.reuse = true → s.run.memo.find? (d, s.bounds.signature (s.argBounds args)) = none)
    (i : InstId) :
    let scope := calleeScope s.bounds d (s.argBounds args)
    let answer := descend d s.run scope (some (s.frame.location i))
    (s.callDefined ctx descend i d g args).2 = answer.2.2 ∧
      (s.callDefined ctx descend i d g args).1.run.visits = answer.1.visits := by
  intro scope answer
  have hmemo : (if ctx.reuse then s.run.memo.find? (d, s.bounds.signature (s.argBounds args))
      else none) = none := by
    split_ifs with hreuse
    · exact hnew hreuse
    · rfl
  have hsummary : (s.summarize ctx descend i d (s.argBounds args)).1.visits = answer.1.visits ∧
      (s.summarize ctx descend i d (s.argBounds args)).2 = ⟨answer.2.2, answer.2.1⟩ := by
    unfold summarize
    dsimp only
    rw [hmemo]
    exact ⟨rfl, rfl⟩
  unfold callDefined
  rw [hfollowed]
  dsimp only
  rw [checkRange_visits, hsummary.2]
  refine ⟨rfl, Eq.trans ?_ hsummary.1⟩
  exact congrArg Run.visits (applySummary_keeps { s with
    run := (s.summarize ctx descend i d (s.argBounds args)).1 } ctx.module d args answer.2.1).1

/-- When the budget is used up in the middle of a function, nothing is known of the result
exactly if no return was looked at before or one of those looked at yields nothing known. This
holds of the answer for the function that is asked for, and of what a caller gets from a call.
The budget stays used up behind the call, so nothing takes its summary over later. -/
theorem cut_result_from_earlier_returns (ctx : Context) :
    (∀ (run : Run) (id : FuncId) (f : Function) (bounds : Bounds) (done : List Action) (i : InstId),
      let start := ofCall run.restart id f bounds none
      let descend := descent ctx (ctx.module.functions.length - 1)
      ctx.module.functions[id]? = some f → start.CutAt ctx descend done i →
        ((analyzeFunction ctx run id bounds).2.2 = none ↔ start.ReturnsNothing ctx descend done)) ∧
    ∀ (depth : Nat) (s : State) (i : InstId) (inst : Inst) (callee : String) (args : List (Ty × Operand)) (d : FuncId)
      (g : Function) (done : List Action) (j : InstId),
      let start := s.atCall i args d g
      let descend := descent ctx depth
      s.frame.function.CallsAt ctx.module i inst callee args d → ctx.module.functions[d]? = some g →
      s.refusal? ctx d g.name = none →
      (ctx.reuse = true → s.run.memo.find? (d, s.bounds.signature (args.map fun a => s.operand? a.2)) = none) →
      start.CutAt ctx descend done j →
        ((s.transfer ctx (descent ctx (depth + 1)) i inst).2 = none ↔ start.ReturnsNothing ctx descend done) ∧
        ctx.limits.maxVisits < (s.transfer ctx (descent ctx (depth + 1)) i inst).1.run.visits := by
  refine ⟨?_, ?_⟩
  · intro run id f bounds done i start descend hid hcut
    have hdepth : ctx.module.functions.length = ctx.module.functions.length - 1 + 1 := by
      obtain ⟨hlt, -⟩ := List.getElem?_eq_some_iff.mp hid
      omega
    unfold analyzeFunction
    rw [hdepth]
    exact (analyzeWithin_of_cut hid hcut).1
  · intro depth s i inst callee args d g done j start descend hcall hg hfollowed hnew hcut
    obtain ⟨hresult, hspent⟩ := analyzeWithin_of_cut hg hcut
    obtain ⟨hvalue, hvisits⟩ := @callDefined_of_new ctx (descent ctx (depth + 1)) s d g args hfollowed hnew i
    rw [transfer_call _ hcall hg]
    refine ⟨?_, hspent.trans_eq hvisits.symm⟩
    rw [hvalue]
    exact Option.map_eq_none_iff.trans hresult

end State

/-- A function with two returns. -/
def fork : Function where
  name := "fork"
  retTy := .int 32
  params := [⟨"c", .int 1⟩]
  rangeType := none
  blocks := [⟨"entry", [0]⟩, ⟨"a", [1]⟩, ⟨"b", [2]⟩]
  insts := [
    ⟨none, .condBr (.arg 0) 1 2, .void, none, 0, false⟩,
    ⟨none, .ret (some (.int 32, .const (.int 1))), .void, none, 1, false⟩,
    ⟨none, .ret (some (.int 32, .const (.int 2))), .void, none, 2, false⟩]

/-- A function that calls it. -/
def forkCaller : Function where
  name := "caller"
  retTy := .int 32
  params := [⟨"c", .int 1⟩]
  rangeType := none
  blocks := [⟨"entry", [0, 1]⟩]
  insts := [
    ⟨some "r", .call "fork" [(.int 1, .arg 0)], .int 32, none, 0, false⟩,
    ⟨none, .ret (some (.int 32, .inst 0)), .void, none, 0, false⟩]

/-- Both functions, and a budget of two instructions. -/
def smallBudget : Context := ⟨⟨none, [], [], [], [fork, forkCaller]⟩, .default, ⟨32, 2⟩, true⟩

namespace State

/-- The caller at its call. -/
def atFork : State := spend (ofCall Run.initial.restart 1 forkCaller (.ofSeeds .empty) none) smallBudget

/-- Entered from its caller, the function is cut before its first return, and the caller gets
nothing. -/
theorem cut_result_from_earlier_returns_call :
    (atFork.atCall 0 [(.int 1, .arg 0)] 0 fork).CutAt smallBudget (descent smallBudget 0)
      [.enter 0, .visit 0, .close 0, .enter 1] 1 ∧
    (atFork.transfer smallBudget (descent smallBudget 1) 0
      ⟨some "r", .call "fork" [(.int 1, .arg 0)], .int 32, none, 0, false⟩).2 = none := by
  have hcut : (atFork.atCall 0 [(.int 1, .arg 0)] 0 fork).CutAt smallBudget (descent smallBudget 0)
      [.enter 0, .visit 0, .close 0, .enter 1] 1 := by
    refine ⟨⟨_, rfl⟩, ?_, by decide⟩
    exact ⟨fun _ h => (by cases h), fun _ _ => (by decide), fun _ h => (by cases h), fun _ h => (by cases h),
      trivial⟩
  refine ⟨hcut, ((cut_result_from_earlier_returns smallBudget).2 0 atFork 0 _ "fork" _ 0 fork _ 1
    ⟨by decide, rfl, rfl, by decide, by decide⟩ rfl (Option.isNone_iff_eq_none.mp (by decide))
    (fun _ => rfl) hcut).1.mpr (Or.inl fun i v hi => ?_)⟩
  obtain rfl : i = 0 := by simpa using hi
  exact fun h => by cases h

/-- The function itself is cut between its returns: the second one is not looked at, and the
first one alone is taken for the result. -/
theorem cut_between_returns_yields_first :
    (ofCall Run.initial.restart 0 fork (.ofSeeds .empty) none).CutAt smallBudget (descent smallBudget 1)
      [.enter 0, .visit 0, .close 0, .enter 1, .visit 1, .close 1, .enter 2] 2 ∧
    fork.kind? 2 = some (.ret (some (.int 32, .const (.int 2)))) ∧
    (analyzeFunction smallBudget .initial 0 (.ofSeeds .empty)).2.2 = some (.const (.int 1), ⟨1.0, 1.0⟩) := by
  refine ⟨⟨⟨_, rfl⟩, ?_, by decide⟩, rfl, by decide⟩
  exact ⟨fun _ h => (by cases h), fun _ _ => (by decide), fun _ h => (by cases h), fun _ h => (by cases h),
    fun _ _ => (by decide), fun _ h => (by cases h), fun _ h => (by cases h), trivial⟩

end State

end RangedIR
