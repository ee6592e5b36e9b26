/-
RangedIR.Proofs.Analysis.Work — how far an analysis goes.

The moments of an analysis are the starts of functions and the instructions that it comes
to, in their order, with those inside the functions that are called. Each moment has the
functions that are active then. Calls are not followed into active functions or too deep, so
the stacks of all moments are short and hold no function twice; all instructions are counted
in one book, so the budget holds for all functions together and is reported once.
-/
import RangedIR.Proofs.Analysis.Runs

namespace RangedIR

/-! ## 1. Moments -/

/-- What happens at a moment of an analysis. -/
inductive Occurrence where
  /-- A function is begun. -/
  | start
  /-- An instruction is looked at. -/
  | visit (i : InstId)
  /-- An instruction is not looked at, because the budget is used up. -/
  | denied (i : InstId)

/-- A moment of an analysis. -/
structure Moment where
  /-- The functions that are being analysed, the innermost first. -/
  stack : List Activation
  occurrence : Occurrence

namespace Moment

/-- Whether an instruction is looked at. -/
def isVisit (m : Moment) : Bool :=
  match m.occurrence with
  | .visit _ => true
  | _ => false

/-- Whether an instruction is attempted beyond the budget. -/
def isDenied (m : Moment) : Bool :=
  match m.occurrence with
  | .denied _ => true
  | _ => false

end Moment

namespace State

variable (ctx : Context) (descend : Descent) (inner : FuncId → Run → Bounds → Option Location → List Moment)

/-- The moments inside the function that an instruction calls. There are none if the call is
answered from an earlier one. -/
def momentsOfCall (s : State) (i : InstId) : List Moment :=
  match s.follows? ctx i with
  | some (d, args) =>
    if ctx.reuse && s.run.memo.contains (d, s.bounds.signature (s.argBounds args)) then []
    else inner d s.run (calleeScope s.bounds d (s.argBounds args)) (some (s.frame.location i))
  | none => []

/-- The moments of the instructions of a block. -/
def momentsOfSteps : List InstId → State → List Moment
  | [], _ => []
  | i :: rest, s =>
    if (s.run.tick ctx.limits s.frame.function.name).2 then
      ⟨s.run.stack, .visit i⟩ :: (s.spend ctx).momentsOfCall ctx inner i ++
        momentsOfSteps rest (s.perform ctx descend (.visit i))
    else [⟨s.run.stack, .denied i⟩]

/-- The moments of blocks in order, numbered from `b` on. -/
def momentsOfBlocks : BlockId → List Block → State → List Moment
  | _, [], _ => []
  | b, block :: rest, s =>
    let entered := s.enterBlock ctx.module b
    let (closing, go) := steps ctx descend block.insts entered
    momentsOfSteps ctx descend inner block.insts entered ++
      if go then momentsOfBlocks (b + 1) rest (closing.perform ctx descend (.close b)) else []

end State

/-- The moments of going through a function. -/
def momentsWithin (ctx : Context) : Nat → FuncId → Run → Bounds → Option Location → List Moment
  | 0, _, _, _, _ => []
  | depth + 1, id, run, bounds, site =>
    match ctx.module.functions[id]? with
    | none => []
    | some f =>
      let start := State.ofCall run id f bounds site
      ⟨start.run.stack, .start⟩ ::
        State.momentsOfBlocks ctx (descent ctx depth) (momentsWithin ctx depth) 0 f.blocks start

/-- The moments of the analysis of a function. -/
def momentsOf (ctx : Context) (run : Run) (id : FuncId) (bounds : Bounds) : List Moment :=
  momentsWithin ctx ctx.module.functions.length id run.restart bounds none

/-! ## 2. The count of instructions -/

/-- From one run to another, exactly the instructions among some moments are counted. They are
looked at as long as the budget lasts, and what is attempted beyond it is reported once. -/
structure Run.Counts (limits : Limits) (r r' : Run) (moments : List Moment) : Prop where
  visits : r'.visits = r.visits + moments.countP Moment.isVisit + moments.countP Moment.isDenied
  within : r.visits + moments.countP Moment.isVisit ≤ max r.visits limits.maxVisits
  beyond : 0 < moments.countP Moment.isDenied → limits.maxVisits < r'.visits
  reported : (r.budgetReported = true ↔ limits.maxVisits < r.visits) →
    (r'.budgetReported = true ↔ limits.maxVisits < r'.visits)
  told : r'.told .budgetExhausted + r.budgetReported.toNat = r.told .budgetExhausted + r'.budgetReported.toNat

/-- Going on inside a function counts the instructions among its moments. -/
def Descent.Counts (limits : Limits) (descend : Descent)
    (inner : FuncId → Run → Bounds → Option Location → List Moment) : Prop :=
  ∀ (c : FuncId) (run : Run) (bounds : Bounds) (site : Option Location),
    run.Counts limits (descend c run bounds site).1 (inner c run bounds site)

namespace Run

variable {limits : Limits} {r r' r'' : Run} {l l' : List Moment}

theorem Counts.append (h : r.Counts limits r' l) (h' : r'.Counts limits r'' l') : r.Counts limits r'' (l ++ l') := by
  obtain ⟨hvisits, hwithin, hbeyond, hreported, htold⟩ := h
  obtain ⟨hvisits', hwithin', hbeyond', hreported', htold'⟩ := h'
  refine ⟨?_, ?_, ?_, fun hr => hreported' (hreported hr), by omega⟩
  all_goals
    simp only [List.countP_append]
    omega

/-- What is told about an instruction itself is not counted. -/
theorem Tells.counts (h : r.Tells r') : r.Counts limits r' [] := by
  have htold := h.told_budget
  obtain ⟨more, rfl, -⟩ := h
  exact ⟨rfl, le_max_left _ _, fun hd => absurd hd (lt_irrefl 0), fun hr => hr, by rw [htold]⟩

theorem Counts.of_start (h : r.Counts limits r' l) (stack : List Activation) :
    r.Counts limits r' (⟨stack, .start⟩ :: l) := ⟨h.visits, h.within, h.beyond, h.reported, h.told⟩

theorem counts_visit {name : String} (h : (r.tick limits name).2 = true) (stack : List Activation) (i : InstId) :
    r.Counts limits (r.tick limits name).1 [⟨stack, .visit i⟩] := by
  by_cases hlasts : r.visits + 1 ≤ limits.maxVisits
  · have htick : r.tick limits name = ({ r with visits := r.visits + 1 }, true) := if_pos hlasts
    rw [htick]
    refine ⟨rfl, le_max_of_le_right hlasts, fun hd => absurd hd (lt_irrefl 0), fun hr => hr.trans ?_, rfl⟩
    dsimp only
    omega
  · rw [(State.tick_of_le (Nat.le_of_lt_succ (not_le.mp hlasts)) name).1] at h
    cases h

/-- The first instruction that is attempted beyond the budget is reported. -/
theorem counts_denied {name : String} (h : ¬ (r.tick limits name).2 = true) (stack : List Activation) (i : InstId) :
    r.Counts limits (r.tick limits name).1 [⟨stack, .denied i⟩] := by
  have hspent : limits.maxVisits ≤ r.visits := Nat.le_of_not_lt fun hlt => h (State.tick_of_lt hlt name)
  have hvisits : (r.tick limits name).1.visits = r.visits + 1 ∧ (r.tick limits name).1.budgetReported = true ∧
      (r.tick limits name).1.told .budgetExhausted + r.budgetReported.toNat = r.told .budgetExhausted + 1 := by
    unfold tick
    dsimp only
    rw [if_neg (by omega)]
    split_ifs with hreported
    · exact ⟨rfl, hreported, by rw [hreported]; rfl⟩
    · refine ⟨rfl, rfl, ?_⟩
      rw [Bool.not_eq_true] at hreported
      rw [hreported]
      simp [told, tell, Remark.diagnostic, Remark.code]
  obtain ⟨hvisits, hreported, htold⟩ := hvisits
  refine ⟨hvisits, le_max_left _ _, fun _ => by omega, fun _ => ?_, ?_⟩
  · rw [hreported, hvisits]
    simp only [true_iff]
    omega
  · rw [htold, hreported]
    rfl

end Run

namespace State

variable {ctx : Context} {descend : Descent} {inner : FuncId → Run → Bounds → Option Location → List Moment}

theorem counts_step (h : descend.Counts ctx.limits inner) (s : State) (i : InstId) :
    s.run.Counts ctx.limits (s.step ctx descend i).run (s.momentsOfCall ctx inner i) := by
  have hstep := run_step s ctx descend i
  unfold momentsOfCall
  cases hfollows : s.follows? ctx i with
  | none =>
    rw [hfollows] at hstep
    exact hstep.counts
  | some call =>
    obtain ⟨d, args⟩ := call
    rw [hfollows] at hstep
    have hcall : s.run.Counts ctx.limits (s.summarize ctx descend i d (s.argBounds args)).1
        (if ctx.reuse && s.run.memo.contains (d, s.bounds.signature (s.argBounds args)) then []
        else inner d s.run (calleeScope s.bounds d (s.argBounds args)) (some (s.frame.location i))) := by
      unfold summarize
      dsimp only
      split
      next summary hmemo =>
        split_ifs at hmemo with hreuse
        rw [if_pos (by simp [hreuse, hmemo])]
        exact (Run.Tells.refl _).counts
      next hmemo =>
        rw [if_neg]
        · obtain ⟨hvisits, hwithin, hbeyond, hreported, htold⟩ :=
            h d s.run (calleeScope s.bounds d (s.argBounds args)) (some (s.frame.location i))
          exact ⟨hvisits, hwithin, hbeyond, hreported, htold⟩
        · intro hfound
          obtain ⟨hreuse, hfound⟩ := Bool.and_eq_true_iff.mp hfound
          rw [if_pos hreuse] at hmemo
          rw [Table.contains_eq, hmemo] at hfound
          cases hfound
    have hall := hcall.append hstep.counts
    rwa [List.append_nil] at hall

theorem counts_steps (h : descend.Counts ctx.limits inner) (l : List InstId) :
    ∀ s : State, s.run.Counts ctx.limits (steps ctx descend l s).1.run (momentsOfSteps ctx descend inner l s) := by
  induction l with
  | nil => exact fun s => (Run.Tells.refl s.run).counts
  | cons i rest ih =>
    intro s
    rw [steps_cons, momentsOfSteps]
    split_ifs with hgo
    · exact ((Run.counts_visit hgo s.run.stack i).append (counts_step h (s.spend ctx) i)).append (ih _)
    · exact Run.counts_denied hgo s.run.stack i

theorem counts_blocks (h : descend.Counts ctx.limits inner) (l : List Block) :
    ∀ (b : BlockId) (s : State),
      s.run.Counts ctx.limits (blocks ctx descend b l s).run (momentsOfBlocks ctx descend inner b l s) := by
  induction l with
  | nil => exact fun _ s => (Run.Tells.refl s.run).counts
  | cons block rest ih =>
    intro b s
    have hsteps := counts_steps h block.insts (s.enterBlock ctx.module b)
    rw [run_enterBlock] at hsteps
    rw [blocks_cons, momentsOfBlocks]
    dsimp only
    split
    · exact hsteps.append (ih (b + 1) (perform ctx descend _ (.close b)))
    · rwa [List.append_nil]

end State

/-- An activation counts the instructions among its moments. -/
theorem counts_descent (ctx : Context) (depth : Nat) :
    (descent ctx depth).Counts ctx.limits (momentsWithin ctx depth) := by
  induction depth with
  | zero => exact fun _ run _ _ => (Run.Tells.refl run).counts
  | succ depth ih =>
    intro id run bounds site
    unfold descent momentsWithin
    cases hid : ctx.module.functions[id]? with
    | none =>
      rw [analyzeWithin_of_none hid]
      exact (Run.Tells.refl run).counts
    | some f =>
      rw [analyzeWithin_succ hid]
      obtain ⟨hvisits, hwithin, hbeyond, hreported, htold⟩ :=
        (State.counts_blocks ih f.blocks 0 (.ofCall run id f bounds site)).of_start (⟨id, site⟩ :: run.stack)
      exact ⟨hvisits, hwithin, hbeyond, hreported, htold⟩

/-! ## 3. The functions that are active -/

/-- No function is active twice, and calls are not nested too deep. -/
def Activation.Shallow (limits : Limits) (stack : List Activation) : Prop :=
  (stack.map (·.function)).Nodup ∧ stack.length ≤ max 1 limits.maxCallDepth

namespace State

variable {ctx : Context} {descend : Descent} {inner : FuncId → Run → Bounds → Option Location → List Moment}
  {stack : List Activation}

/-- A call that is followed adds one function to those that are active. -/
theorem shallow_of_follows {s : State} {i : InstId} {d : FuncId} {args : List (Ty × Operand)}
    (hs : Activation.Shallow ctx.limits s.run.stack) (h : s.follows? ctx i = some (d, args)) (site : Option Location) :
    Activation.Shallow ctx.limits (⟨d, site⟩ :: s.run.stack) := by
  obtain ⟨-, hactive, hdepth⟩ := follows?_spec h
  refine ⟨List.nodup_cons.mpr ⟨fun hd => ?_, hs.1⟩, ?_⟩
  · obtain ⟨a, ha, hd⟩ := List.mem_map.mp hd
    rw [Run.isActive, List.any_eq_false] at hactive
    exact hactive a ha (by simpa using hd)
  · rw [List.length_cons]
    omega

theorem shallow_momentsOfSteps (hgrows : descend.Grows)
    (hinner : ∀ d run bounds site, Activation.Shallow ctx.limits (⟨d, site⟩ :: run.stack) →
      ∀ m ∈ inner d run bounds site, Activation.Shallow ctx.limits m.stack) (l : List InstId) :
    ∀ s : State, Activation.Shallow ctx.limits s.run.stack →
      ∀ m ∈ momentsOfSteps ctx descend inner l s, Activation.Shallow ctx.limits m.stack := by
  induction l with
  | nil => exact fun _ _ m hm => by cases hm
  | cons i rest ih =>
    intro s hs m hm
    rw [momentsOfSteps] at hm
    split at hm
    · rcases List.mem_append.mp hm with hm | hm
      · rcases List.mem_cons.mp hm with rfl | hm
        · exact hs
        · have hticked : Activation.Shallow ctx.limits (s.spend ctx).run.stack :=
            (s.run.grows_tick ctx.limits s.frame.function.name).stack.symm ▸ hs
          unfold momentsOfCall at hm
          split at hm
          · next d args hfollows =>
            split_ifs at hm
            · cases hm
            · exact hinner d _ _ _ (shallow_of_follows hticked hfollows _) m hm
          · cases hm
      · exact ih _ (by rwa [(grows_visit ctx hgrows s i).stack]) m hm
    · rw [List.mem_singleton.mp hm]
      exact hs

theorem shallow_momentsOfBlocks (hgrows : descend.Grows)
    (hinner : ∀ d run bounds site, Activation.Shallow ctx.limits (⟨d, site⟩ :: run.stack) →
      ∀ m ∈ inner d run bounds site, Activation.Shallow ctx.limits m.stack) (l : List Block) :
    ∀ (b : BlockId) (s : State), Activation.Shallow ctx.limits s.run.stack →
      ∀ m ∈ momentsOfBlocks ctx descend inner b l s, Activation.Shallow ctx.limits m.stack := by
  induction l with
  | nil => exact fun _ _ _ m hm => by cases hm
  | cons block rest ih =>
    intro b s hs m hm
    have hentered : Activation.Shallow ctx.limits (s.enterBlock ctx.module b).run.stack := by rwa [run_enterBlock]
    have hsteps := grows_steps ctx hgrows block.insts (s.enterBlock ctx.module b)
    unfold momentsOfBlocks at hm
    rcases List.mem_append.mp hm with hm | hm
    · exact shallow_momentsOfSteps hgrows hinner block.insts _ hentered m hm
    · split at hm
      · refine ih (b + 1) _ ?_ m hm
        change Activation.Shallow ctx.limits (steps ctx descend block.insts (s.enterBlock ctx.module b)).1.run.stack
        rwa [hsteps.stack]
      · cases hm

end State

/-- All moments of an activation have the functions active that were active before it, and
others at most as deep as the limit. -/
theorem shallow_momentsWithin (ctx : Context) (depth : Nat) :
    ∀ d run bounds site, Activation.Shallow ctx.limits (⟨d, site⟩ :: run.stack) →
      ∀ m ∈ momentsWithin ctx depth d run bounds site, Activation.Shallow ctx.limits m.stack := by
  induction depth with
  | zero => exact fun _ _ _ _ _ m hm => by cases hm
  | succ depth ih =>
    intro d run bounds site hd m hm
    unfold momentsWithin at hm
    split at hm
    · cases hm
    · rcases List.mem_cons.mp hm with rfl | hm
      · exact hd
      · exact State.shallow_momentsOfBlocks (grows_descent ctx depth) ih _ 0 _ hd m hm

/-! ## 4. Whole analyses -/

/-- Recursion and work are bounded. At every moment of the analysis of a function, no function
is active twice and no more functions are active than the limit on nested calls says. No more
instructions are looked at than the budget has, those of the functions called included. It is
reported once that the budget is used up if an instruction is attempted beyond it, and not at
all otherwise. Every attempt is counted, and in the end no function is active. A greater depth
of recursion than the number of functions makes no difference. -/
theorem analyzeFunction_bounded (ctx : Context) (run : Run) (id : FuncId) (bounds : Bounds) :
    let moments := momentsOf ctx run id bounds
    let visited := moments.countP Moment.isVisit
    let denied := moments.countP Moment.isDenied
    let answer := (analyzeFunction ctx run id bounds).1
    (∀ m ∈ moments, (m.stack.map (·.function)).Nodup ∧ m.stack.length ≤ max 1 ctx.limits.maxCallDepth) ∧
      visited ≤ ctx.limits.maxVisits ∧
      answer.told .budgetExhausted = run.told .budgetExhausted + (if 0 < denied then 1 else 0) ∧
      answer.visits = visited + denied ∧
      answer.stack = [] ∧
      ∀ depth, ctx.module.functions.length ≤ depth →
        analyzeWithin ctx depth id run.restart bounds none = analyzeFunction ctx run id bounds := by
  intro moments visited denied answer
  obtain ⟨hvisits, hwithin, hbeyond, hreported, htold⟩ : run.restart.Counts ctx.limits answer moments :=
    counts_descent ctx _ id run.restart bounds none
  have hstart : run.restart.visits = 0 ∧ run.restart.budgetReported = false ∧
      run.restart.told .budgetExhausted = run.told .budgetExhausted := ⟨rfl, rfl, rfl⟩
  rw [hstart.1] at hvisits hwithin
  rw [hstart.2.1, hstart.2.2] at htold
  have hflag : answer.budgetReported = true ↔ ctx.limits.maxVisits < answer.visits :=
    hreported (by rw [hstart.1, hstart.2.1]; simp)
  have hshallow : Activation.Shallow ctx.limits (⟨id, none⟩ :: run.restart.stack) :=
    ⟨List.nodup_singleton id, le_max_left 1 _⟩
  refine ⟨shallow_momentsWithin ctx _ id run.restart bounds none hshallow, by omega, ?_, by omega,
    (grows_descent ctx _ id run.restart bounds none).stack, fun depth hdepth => ?_⟩
  · by_cases hdenied : 0 < denied
    · have htrue : answer.budgetReported = true := hflag.mpr (hbeyond hdenied)
      rw [if_pos hdenied]
      simpa [htrue] using htold
    · have hfalse : answer.budgetReported = false := by
        rw [← Bool.not_eq_true, hflag]
        omega
      rw [if_neg hdenied]
      simpa [hfalse] using htold
  · exact analyzeWithin_depth ctx depth (run.begins_restart ctx.module id hdepth)
      (run.begins_restart ctx.module id le_rfl) bounds none

end RangedIR
