/-
RangedIR.Proofs.Analysis.Script — an activation as a list of actions.

While the budget lasts, the analysis of a function does three things in a fixed order:
it sets up memory at the start of a block, looks at the instructions of the block, and
keeps the memory at its end. The script of a function lists them; a point of the
analysis is a beginning of the script.
-/
import RangedIR.Analysis.Engine
import RangedIR.Proofs.Table

namespace RangedIR

/-- What the analysis of a function does next. -/
inductive Action where
  /-- Set up memory at the start of a block. -/
  | enter (b : BlockId)
  /-- Look at an instruction. -/
  | visit (i : InstId)
  /-- Keep the memory at the end of a block. -/
  | close (b : BlockId)
  deriving DecidableEq

/-- The instruction that an action looks at. -/
def Action.inst? : Action → Option InstId
  | .visit i => some i
  | _ => none

namespace Function

/-- The actions of one block. -/
def blockScript (b : BlockId) (block : Block) : List Action :=
  .enter b :: block.insts.map .visit ++ [.close b]

/-- The actions of the blocks from number `b` on. -/
def scriptFrom (b : BlockId) (blocks : List Block) : List Action :=
  (blocks.zipIdx b).flatMap fun (block, b) => blockScript b block

/-- The actions of a function. -/
def script (f : Function) : List Action := scriptFrom 0 f.blocks

theorem scriptFrom_cons (b : BlockId) (block : Block) (rest : List Block) :
    scriptFrom b (block :: rest) = blockScript b block ++ scriptFrom (b + 1) rest := rfl

theorem scriptFrom_append (b : BlockId) (l r : List Block) :
    scriptFrom b (l ++ r) = scriptFrom b l ++ scriptFrom (b + l.length) r := by
  unfold scriptFrom
  rw [List.zipIdx_append, List.flatMap_append]

/-- The actions of the blocks before a block. -/
def upTo (f : Function) (b : BlockId) : List Action := scriptFrom 0 (f.blocks.take b)

/-- The actions before a point of a block, of which the given instructions are done. -/
def before (f : Function) (b : BlockId) (done : List InstId) : List Action :=
  f.upTo b ++ .enter b :: done.map .visit

variable {f : Function} {b : BlockId} {block : Block} {i : InstId}

theorem upTo_succ (h : f.blocks[b]? = some block) : f.upTo (b + 1) = f.before b block.insts ++ [.close b] := by
  obtain ⟨hlt, -⟩ := List.getElem?_eq_some_iff.mp h
  have hlen : (f.blocks.take b).length = b := by rw [List.length_take]; omega
  unfold upTo before
  rw [List.take_add_one, h, scriptFrom_append, hlen]
  simp [scriptFrom, blockScript, upTo]

/-- The script goes on from a point with the rest of the block. -/
theorem script_eq_before {done rest : List InstId}
    (h : f.blocks[b]? = some block) (hsplit : block.insts = done ++ rest) :
    ∃ tail, f.script = f.before b done ++ (rest.map .visit ++ tail) := by
  obtain ⟨hlt, -⟩ := List.getElem?_eq_some_iff.mp h
  refine ⟨.close b :: scriptFrom (b + 1) (f.blocks.drop (b + 1)), ?_⟩
  have hlen : (f.blocks.take (b + 1)).length = b + 1 := by rw [List.length_take]; omega
  calc f.script = scriptFrom 0 (f.blocks.take (b + 1) ++ f.blocks.drop (b + 1)) := by
        rw [List.take_append_drop]; rfl
    _ = f.upTo (b + 1) ++ scriptFrom (b + 1) (f.blocks.drop (b + 1)) := by
        rw [scriptFrom_append, hlen, Nat.zero_add]; rfl
    _ = _ := by
        rw [upTo_succ h, hsplit]
        simp [before]

theorem scriptFrom_visits (l : List Block) :
    ∀ b, (scriptFrom b l).filterMap Action.inst? = l.flatMap (·.insts) := by
  induction l with
  | nil => intro b; rfl
  | cons block rest ih =>
    intro b
    have hblock : (blockScript b block).filterMap Action.inst? = block.insts := by
      have hmap : (block.insts.map Action.visit).filterMap Action.inst? = block.insts := by
        rw [List.filterMap_map]
        exact List.filterMap_some
      rw [blockScript, List.cons_append, List.filterMap_cons_none rfl, List.filterMap_append, hmap]
      exact List.append_nil _
    rw [scriptFrom_cons, List.filterMap_append, hblock, ih, List.flatMap_cons]

/-- The script looks at the live instructions in their order. -/
theorem script_visits (f : Function) : f.script.filterMap Action.inst? = f.layout :=
  scriptFrom_visits f.blocks 0

theorem mem_layout_of_visit (h : .visit i ∈ f.script) : i ∈ f.layout := by
  rw [← script_visits]
  exact List.mem_filterMap.mpr ⟨.visit i, h, rfl⟩

/-- In a function that lists no instruction twice, the script does not look at an
instruction again. -/
theorem visit_notMem_of_nodup (h : f.layout.Nodup) {l r : List Action} (hscript : f.script = l ++ r)
    (hi : .visit i ∈ l) : .visit i ∉ r := by
  rw [← script_visits, hscript, List.filterMap_append] at h
  intro hr
  exact (List.disjoint_of_nodup_append h) (List.mem_filterMap.mpr ⟨.visit i, hi, rfl⟩)
    (List.mem_filterMap.mpr ⟨.visit i, hr, rfl⟩)

theorem split_unique {α : Type} {x : α} {l r l' r' : List α} (hl : x ∉ l) (hl' : x ∉ l')
    (h : l ++ x :: r = l' ++ x :: r') : l = l' := by
  induction l generalizing l' with
  | nil =>
    cases l' with
    | nil => rfl
    | cons b rest => exact absurd (List.cons.inj h).1 fun e => hl' (e ▸ List.mem_cons_self)
  | cons a rest ih =>
    cases l' with
    | nil => exact absurd (List.cons.inj h).1 fun e => hl (e ▸ List.mem_cons_self)
    | cons b rest' =>
      obtain ⟨rfl, htail⟩ := List.cons.inj h
      rw [ih (fun hm => hl (List.mem_cons_of_mem _ hm)) (fun hm => hl' (List.mem_cons_of_mem _ hm)) htail]

/-- In a function that lists no instruction twice, an instruction has one place. -/
theorem place_unique (hnodup : f.layout.Nodup) {b' : BlockId} {block' : Block}
    {done rest done' rest' : List InstId} (hb : f.blocks[b]? = some block) (hsplit : block.insts = done ++ i :: rest)
    (hb' : f.blocks[b']? = some block') (hsplit' : block'.insts = done' ++ i :: rest') : b = b' ∧ done = done' := by
  obtain ⟨hinsts, hdisjoint⟩ := List.nodup_flatMap.mp hnodup
  obtain ⟨hlt, hget⟩ := List.getElem?_eq_some_iff.mp hb
  obtain ⟨hlt', hget'⟩ := List.getElem?_eq_some_iff.mp hb'
  have hi : i ∈ block.insts := by simp [hsplit]
  have hi' : i ∈ block'.insts := by simp [hsplit']
  have hbb : b = b' := by
    rcases lt_trichotomy b b' with h | h | h
    · have := List.pairwise_iff_getElem.mp hdisjoint b b' hlt hlt' h
      rw [hget, hget'] at this
      exact absurd hi' (this hi)
    · exact h
    · have := List.pairwise_iff_getElem.mp hdisjoint b' b hlt' hlt h
      rw [hget, hget'] at this
      exact absurd hi (this hi')
  refine ⟨hbb, ?_⟩
  subst hbb
  obtain rfl : block = block' := Option.some.inj (hb.symm.trans hb')
  have hfirst : ∀ {l r : List InstId}, block.insts = l ++ i :: r → i ∉ l := by
    intro l r h hm
    have hn := hinsts block (List.mem_of_getElem? hb)
    rw [h] at hn
    exact List.disjoint_of_nodup_append hn hm List.mem_cons_self
  exact split_unique (hfirst hsplit) (hfirst hsplit') (hsplit.symm.trans hsplit')

end Function

namespace State

/-- Remarks are told to the run and change nothing else. -/
theorem foldl_tell (id : InstId) (remarks : List Remark) :
    ∀ s : State, let t := remarks.foldl (fun s r => s.tell id r) s
      t.bounds = s.bounds ∧ t.frame = s.frame ∧ t.run.visits = s.run.visits ∧ t.run.stack = s.run.stack ∧
        t.run.memo = s.run.memo := by
  induction remarks with
  | nil => intro s; exact ⟨rfl, rfl, rfl, rfl, rfl⟩
  | cons r rest ih => intro s; exact ih (s.tell id r)

/-- One action. -/
def perform (ctx : Context) (descend : Descent) (s : State) : Action → State
  | .enter b => s.enterBlock ctx.module b
  | .visit i =>
    ({ s with run := (s.run.tick ctx.limits s.frame.function.name).1 } : State).step ctx descend i
  | .close b =>
    { s with frame := { s.frame with exits := s.frame.exits.insert b (s.frame.snapshot ctx.module s.bounds) } }

/-- Actions one after the other. -/
def performAll (ctx : Context) (descend : Descent) (actions : List Action) (s : State) : State :=
  actions.foldl (perform ctx descend) s

variable {ctx : Context} {descend : Descent}

@[simp] theorem performAll_nil (s : State) : performAll ctx descend [] s = s := rfl

@[simp] theorem performAll_cons (a : Action) (rest : List Action) (s : State) :
    performAll ctx descend (a :: rest) s = performAll ctx descend rest (s.perform ctx descend a) := rfl

theorem performAll_append (l r : List Action) (s : State) :
    performAll ctx descend (l ++ r) s = performAll ctx descend r (performAll ctx descend l s) :=
  List.foldl_append

/-- What holds at the start and is kept by every action of a list holds at its end. -/
theorem performAll_induction {P : State → Prop} {actions : List Action}
    (hstep : ∀ s, P s → ∀ a ∈ actions, P (s.perform ctx descend a)) {s : State} (hs : P s) :
    P (performAll ctx descend actions s) :=
  List.foldlRecOn actions _ hs hstep

section Budget

/-- The state behind the attempt to look at an instruction. -/
def spend (s : State) (ctx : Context) : State := { s with run := (s.run.tick ctx.limits s.frame.function.name).1 }

theorem steps_cons (i : InstId) (rest : List InstId) (s : State) :
    steps ctx descend (i :: rest) s = if (s.run.tick ctx.limits s.frame.function.name).2 = true then
      steps ctx descend rest (s.perform ctx descend (.visit i)) else (s.spend ctx, false) := rfl

theorem tick_of_lt {r : Run} {limits : Limits} (h : r.visits < limits.maxVisits) (name : String) :
    (r.tick limits name).2 = true := by
  unfold Run.tick
  exact congrArg Prod.snd (if_pos (Nat.succ_le_of_lt h))

theorem tick_same (r : Run) (limits : Limits) (name : String) : (r.tick limits name).1.stack = r.stack ∧
    (r.tick limits name).1.memo = r.memo ∧ (r.tick limits name).1.visits = r.visits + 1 := by
  unfold Run.tick
  dsimp only
  split_ifs <;> exact ⟨rfl, rfl, rfl⟩

/-- Looking at any of the given instructions counts as one, in the states with the
property `P`, which all actions keep. -/
structure CountsOne (ctx : Context) (descend : Descent) (P : State → Prop) (insts : List InstId) : Prop where
  keeps : ∀ s, P s → ∀ a, (∀ i, a = .visit i → i ∈ insts) → P (s.perform ctx descend a)
  visits : ∀ s, P s → ∀ i ∈ insts, (s.perform ctx descend (.visit i)).run.visits = s.run.visits + 1

variable {P : State → Prop}

theorem steps_eq_performAll {insts : List InstId} (h : CountsOne ctx descend P insts) :
    ∀ (l : List InstId) (s : State), P s → l ⊆ insts → s.run.visits + l.length ≤ ctx.limits.maxVisits →
      steps ctx descend l s = (performAll ctx descend (l.map .visit) s, true) ∧
        P (performAll ctx descend (l.map .visit) s) ∧
        (performAll ctx descend (l.map .visit) s).run.visits = s.run.visits + l.length
  | [], s, hs, _, _ => ⟨rfl, hs, rfl⟩
  | i :: rest, s, hs, hsub, hbudget => by
    rw [List.length_cons] at hbudget
    have hi : i ∈ insts := hsub List.mem_cons_self
    have hgo : (s.run.tick ctx.limits s.frame.function.name).2 = true := tick_of_lt (by omega) _
    have hvis := h.visits s hs i hi
    obtain ⟨h1, h2, h3⟩ := steps_eq_performAll h rest (s.perform ctx descend (.visit i))
      (h.keeps s hs (.visit i) (by simpa using hi)) (fun x hx => hsub (List.mem_cons_of_mem _ hx))
      (by omega)
    refine ⟨?_, h2, ?_⟩
    · rw [steps_cons, if_pos hgo]
      exact h1
    · rw [List.map_cons, performAll_cons, h3, hvis, List.length_cons]
      omega

theorem run_enterBlock (s : State) (m : Module) (b : BlockId) : (s.enterBlock m b).run = s.run := by
  unfold enterBlock
  cases s.entryState m b <;> rfl

/-- While the budget lasts, going through the blocks performs their script. -/
theorem blocks_eq_performAll {insts : List InstId} (h : CountsOne ctx descend P insts) :
    ∀ (l : List Block) (b : BlockId) (s : State), P s → l.flatMap (·.insts) ⊆ insts →
      s.run.visits + (l.flatMap (·.insts)).length ≤ ctx.limits.maxVisits →
      blocks ctx descend b l s = performAll ctx descend (Function.scriptFrom b l) s
  | [], _, _, _, _, _ => rfl
  | block :: rest, b, s, hs, hsub, hbudget => by
    rw [List.flatMap_cons] at hsub hbudget
    rw [List.length_append] at hbudget
    have hent : P (s.enterBlock ctx.module b) := h.keeps s hs (.enter b) (by simp)
    obtain ⟨h1, h2, h3⟩ := steps_eq_performAll h block.insts (s.enterBlock ctx.module b) hent
      (fun x hx => hsub (List.mem_append_left _ hx)) (by rw [run_enterBlock]; omega)
    have hclose := h.keeps _ h2 (.close b) (by simp)
    have ih := blocks_eq_performAll h rest (b + 1) _ hclose
      (fun x hx => hsub (List.mem_append_right _ hx)) (by
        change (performAll ctx descend (block.insts.map .visit) (s.enterBlock ctx.module b)).run.visits + _ ≤ _
        rw [h3, run_enterBlock]
        omega)
    rw [Function.scriptFrom_cons, performAll_append]
    unfold blocks
    simp only [h1, if_true]
    rw [Function.blockScript, List.cons_append, performAll_cons, performAll_append]
    exact ih

end Budget

end State

/-! ## Activations -/

/-- How the analysis of a function goes on inside the functions it calls. -/
def descent (ctx : Context) (depth : Nat) : Descent := fun callee run bounds site =>
  let (run, bounds, result) := analyzeWithin ctx depth callee run bounds site
  (run, bounds, result.map Prod.snd)

/-- The state in which a function is begun. -/
def State.ofCall (run : Run) (id : FuncId) (f : Function) (bounds : Bounds) (site : Option Location) : State :=
  ⟨{ run with stack := ⟨id, site⟩ :: run.stack }, .start id f, bounds⟩

theorem analyzeWithin_succ {ctx : Context} {depth : Nat} {id : FuncId} {f : Function} {run : Run} {bounds : Bounds}
    {site : Option Location} (hid : ctx.module.functions[id]? = some f) :
    analyzeWithin ctx (depth + 1) id run bounds site =
      let s := (State.blocks ctx (descent ctx depth) 0 f.blocks (.ofCall run id f bounds site)).leave ctx.module
      ({ s.run with stack := s.run.stack.drop 1 }, s.bounds, foldReturns s.frame.returns) := by
  rw [analyzeWithin, hid]
  rfl

/-- What the parts of an activation keep, the activation keeps, whether the budget lasts
or not. -/
theorem State.blocks_induction {ctx : Context} {descend : Descent} {P : State → Prop}
    (henter : ∀ s b, P s → P (s.enterBlock ctx.module b))
    (htick : ∀ s, P s → P (s.spend ctx))
    (hclose : ∀ s b, P s → P (s.perform ctx descend (.close b))) :
    ∀ (l : List Block) (b : BlockId) (s : State),
      (∀ s, P s → ∀ i ∈ l.flatMap (·.insts), P (s.step ctx descend i)) → P s → P (blocks ctx descend b l s)
  | [], _, _, _, hs => hs
  | block :: rest, b, s, hstep, hs => by
    have hsteps : ∀ (ids : List InstId) (s : State), ids ⊆ block.insts → P s → P (steps ctx descend ids s).1 := by
      intro ids
      induction ids with
      | nil => exact fun _ _ hs => hs
      | cons i ids ih =>
        intro s hsub hs
        rw [steps_cons]
        split_ifs
        · refine ih _ (fun j hj => hsub (List.mem_cons_of_mem _ hj)) (hstep _ (htick s hs) i ?_)
          exact List.mem_flatMap.mpr ⟨block, List.mem_cons_self, hsub List.mem_cons_self⟩
        · exact htick s hs
    have hblock := hsteps block.insts (s.enterBlock ctx.module b) (List.Subset.refl _) (henter s b hs)
    unfold blocks
    rcases hrun : steps ctx descend block.insts (s.enterBlock ctx.module b) with ⟨t, go⟩
    rw [hrun] at hblock
    cases go with
    | false => exact hblock
    | true =>
      refine blocks_induction henter htick hclose rest (b + 1) _ (fun s hs i hi => hstep s hs i ?_) (hclose t b hblock)
      exact List.mem_flatMap.mpr ((List.mem_flatMap.mp hi).imp fun _ h => ⟨List.mem_cons_of_mem _ h.1, h.2⟩)

end RangedIR
