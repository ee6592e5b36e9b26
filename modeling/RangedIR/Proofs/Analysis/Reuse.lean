/-
RangedIR.Proofs.Analysis.Reuse — calls that are answered from earlier ones.

A call with the inputs of an earlier one may be answered from the summary that the earlier one
left. The inputs are the function, its arguments and what is known of the module; so an
activation must depend on nothing else: not on the functions that are active, not on what the
caller knows of itself, not on what has been counted. Two analyses are compared step by step,
one that goes through every function afresh and one that may reuse summaries. As long as the
first comes to no limit, the second stays behind it and knows the same.
-/
import RangedIR.Proofs.Analysis.Alike
import RangedIR.Proofs.Analysis.CallerValues

namespace RangedIR

open Relation

/-- The same context, in which calls are answered from earlier ones or not. -/
def Context.reusing (ctx : Context) (reuse : Bool) : Context := { ctx with reuse := reuse }

/-! ## 1. Runs -/

/-- A function is begun, and calls lead to it from all functions that are active. -/
structure Run.Enters (m : Module) (depth : Nat) (id : FuncId) (r : Run) : Prop extends Run.Begins m depth id r where
  leads : ∀ a ∈ r.stack, TransGen m.Calls a.function id

/-- From one run to another no limit is reached: the budget lasts and no call is refused. -/
structure Run.Quiet (limits : Limits) (r r' : Run) : Prop where
  visits : r'.visits ≤ limits.maxVisits
  followed : r'.told .callNotFollowed = r.told .callNotFollowed

/-- A summary is what going through the function leaves behind, at every call with the
inputs. -/
def Summary.IsFresh (ctx : Context) (tables : Bounds.Tables) (d : FuncId) (inputs : Signature)
    (summary : Summary) : Prop :=
  ∀ (b : Bounds) (args : List (Option Bound)), b.tables = tables → b.signature args = inputs →
    let answer := analyzeWithin ctx ctx.module.functions.length d .initial (State.calleeScope b d args) none
    summary.result = answer.2.2.map Prod.snd ∧ answer.2.1.Same summary.scope

/-- The second run is behind the first: it has counted no more and is no deeper in calls. What
it may reuse is fresh. -/
structure Run.Trails (ctx : Context) (tables : Bounds.Tables) (reuse : Bool) (r t : Run) : Prop where
  visits : t.visits ≤ r.visits
  stack : t.stack.length ≤ r.stack.length
  memo : reuse = true → t.memo.All fun key summary => summary.IsFresh ctx tables key.1 key.2

namespace Run

variable {m : Module} {depth : Nat} {id d : FuncId} {limits : Limits} {r r' r'' : Run}

theorem Enters.of_stack (h : r.Enters m depth d) (hstack : r'.stack = r.stack) : r'.Enters m depth d := by
  obtain ⟨⟨hnodup, hdefined, hcovers⟩, hleads⟩ := h
  rw [← hstack] at hnodup hdefined hcovers hleads
  exact ⟨⟨hnodup, hdefined, hcovers⟩, hleads⟩

theorem enters_initial (m : Module) (d : FuncId) : initial.Enters m m.functions.length d :=
  ⟨initial.begins_restart m d le_rfl, by simp [initial]⟩

theorem Enters.isActive (h : r.Enters m depth d) : r.isActive d = false := by
  rw [Run.isActive, List.any_eq_false]
  intro a ha hd
  refine (List.nodup_cons.mp h.nodup).1 (List.mem_map.mpr ⟨a, ha, ?_⟩)
  simpa using hd

/-- Where calls lead to no function from itself, a function that is called is not active. -/
theorem Enters.call (h : r.Enters m (depth + 1) id) (hacyclic : ∀ c, ¬ TransGen m.Calls c c)
    (hid : id < m.functions.length) (hcall : m.Calls id d) {site : Option Location}
    (hstack : r'.stack = ⟨id, site⟩ :: r.stack) : r'.Enters m depth d := by
  have hleads : ∀ a ∈ r'.stack, TransGen m.Calls a.function d := by
    intro a ha
    rw [hstack] at ha
    rcases List.mem_cons.mp ha with rfl | ha
    · exact .single hcall
    · exact (h.leads a ha).tail hcall
  refine ⟨h.toBegins.call hid hstack ?_, hleads⟩
  rw [Run.isActive, List.any_eq_false]
  intro a ha hd
  obtain rfl : a.function = d := by simpa using hd
  exact hacyclic _ (hleads a ha)

theorem Quiet.split (h : r.Quiet limits r'') (hgrows : r.Grows r') (hgrows' : r'.Grows r'') :
    r.Quiet limits r' ∧ r'.Quiet limits r'' := by
  have hfirst := hgrows.told .callNotFollowed
  have hsecond := hgrows'.told .callNotFollowed
  have hfollowed := h.followed
  exact ⟨⟨hgrows'.visits.trans h.visits, by omega⟩, ⟨h.visits, by omega⟩⟩

variable {ctx : Context} {tables : Bounds.Tables} {reuse : Bool} {t t' : Run}

theorem trails_initial (r : Run) : r.Trails ctx tables reuse initial :=
  ⟨Nat.zero_le _, Nat.zero_le _, fun _ => Table.all_empty⟩

theorem Trails.of_tells (h : r.Trails ctx tables reuse t) (hr : r.Tells r') (ht : t.Tells t') :
    r'.Trails ctx tables reuse t' := by
  obtain ⟨_, rfl, -⟩ := hr
  obtain ⟨_, rfl, -⟩ := ht
  exact ⟨h.visits, h.stack, h.memo⟩

theorem Trails.tick (h : r.Trails ctx tables reuse t) (limits : Limits) (name name' : String) :
    (r.tick limits name).1.Trails ctx tables reuse (t.tick limits name').1 := by
  obtain ⟨hstack, -, hvisits⟩ := State.tick_same r limits name
  obtain ⟨hstack', hmemo, hvisits'⟩ := State.tick_same t limits name'
  refine ⟨?_, ?_, fun hreuse => by rw [hmemo]; exact h.memo hreuse⟩
  · rw [hvisits, hvisits']
    exact Nat.succ_le_succ h.visits
  · rw [hstack, hstack']
    exact h.stack

end Run

/-! ## 2. Calls -/

/-- The second answer has the same result and knows the same as the first, and its run is
behind. -/
structure Mirrors {α : Type} (ctx : Context) (tables : Bounds.Tables) (reuse : Bool) (x y : Run × Bounds × α) : Prop where
  run : x.1.Trails ctx tables reuse y.1
  bounds : x.2.1.Same y.2.1
  result : y.2.2 = x.2.2

/-- To go through a function afresh, at a depth, gives the same as to go through it behind
another stack and at another depth, or reusing summaries. -/
structure MirroredWithin (ctx : Context) (tables : Bounds.Tables) (depth : Nat) : Prop where
  fresh : ctx.reusing false = ctx
  mirrors : ∀ (depth' : Nat) (reuse : Bool) (id : FuncId) (r t : Run) (a b : Bounds) (site site' : Option Location),
    r.Enters ctx.module depth id → t.Enters ctx.module depth' id → r.Trails ctx tables reuse t → a.Agree tables b →
    r.Quiet ctx.limits (analyzeWithin ctx depth id r a site).1 →
      Mirrors ctx tables reuse (analyzeWithin ctx depth id r a site)
        (analyzeWithin (ctx.reusing reuse) depth' id t b site')

variable {ctx : Context} {tables : Bounds.Tables} {depth depth' : Nat} {reuse : Bool}
  {s t s' t' : State} {d : FuncId} {f : Function}

namespace State

/-- What a call leaves behind is the same whether the function is gone through or an earlier
call is taken over, and what is kept of it is fresh. -/
theorem summarize_mirrors (hmirrored : MirroredWithin ctx tables depth) (h : s.Alike tables t)
    (htrails : s.run.Trails ctx tables reuse t.run) (hs : s.run.Enters ctx.module depth d)
    (ht : t.run.Enters ctx.module depth' d) (i : InstId) (args : List (Option Bound))
    (hquiet : s.run.Quiet ctx.limits (s.summarize ctx (descent ctx depth) i d args).1) :
    let called := s.summarize ctx (descent ctx depth) i d args
    let called' := t.summarize (ctx.reusing reuse) (descent (ctx.reusing reuse) depth') i d args
    called.1.Trails ctx tables reuse called'.1 ∧ called'.2.result = called.2.result ∧
      called.2.scope.Same called'.2.scope := by
  let x := analyzeWithin ctx depth d s.run (calleeScope s.bounds d args) (some (s.frame.location i))
  have hcalled : s.summarize ctx (descent ctx depth) i d args =
      ({ x.1 with memo := x.1.memo.insert (d, s.bounds.signature args) ⟨x.2.2.map Prod.snd, x.2.1⟩ },
        ⟨x.2.2.map Prod.snd, x.2.1⟩) := by
    unfold summarize
    rw [show ctx.reuse = false from (congrArg Context.reuse hmirrored.fresh).symm]
    rfl
  rw [hcalled] at hquiet ⊢
  have hquiet : s.run.Quiet ctx.limits x.1 := ⟨hquiet.visits, hquiet.followed⟩
  have hgrows : s.run.Grows x.1 := grows_descent ctx depth d s.run _ _
  -- the function depends on nothing but the inputs
  have hscope : ∀ (b : Bounds) (args' : List (Option Bound)), b.tables = tables →
      b.signature args' = t.bounds.signature args →
      (calleeScope s.bounds d args).Agree tables (calleeScope b d args') := by
    intro b args' hb hinputs
    obtain ⟨rfl, hglobals⟩ := Bounds.eq_of_signature hinputs
    exact Bounds.agree_calleeScope (fun g => (h.bounds.same.get? _).trans (hglobals g).symm) h.bounds.tables hb d args'
  have hfresh : ∀ (b : Bounds) (args' : List (Option Bound)), b.tables = tables →
      b.signature args' = t.bounds.signature args →
      Mirrors ctx tables false x (analyzeWithin ctx ctx.module.functions.length d .initial
        (calleeScope b d args') none) := by
    intro b args' hb hinputs
    have hmirrors := hmirrored.mirrors ctx.module.functions.length false d s.run .initial _ _ (some (s.frame.location i))
      none hs (Run.enters_initial ctx.module d) (Run.trails_initial s.run) (hscope b args' hb hinputs) hquiet
    rwa [hmirrored.fresh] at hmirrors
  have hown := hfresh t.bounds args h.bounds.tables' rfl
  cases hlookup : (if reuse then t.run.memo.find? (d, t.bounds.signature args) else none) with
  | some summary =>
    have hcalled' : t.summarize (ctx.reusing reuse) (descent (ctx.reusing reuse) depth') i d args = (t.run, summary) := by
      unfold summarize Context.reusing
      dsimp only
      rw [hlookup]
    rw [hcalled']
    split_ifs at hlookup with hreuse
    obtain ⟨hresult, hsame⟩ := (htrails.memo hreuse).find? hlookup t.bounds args h.bounds.tables' rfl
    refine ⟨⟨htrails.visits.trans hgrows.visits, ?_, htrails.memo⟩, ?_, hown.bounds.trans hsame⟩
    · exact htrails.stack.trans_eq (congrArg List.length hgrows.stack.symm)
    · exact hresult.trans (congrArg (Option.map Prod.snd) hown.result)
  | none =>
    let y := analyzeWithin (ctx.reusing reuse) depth' d t.run (calleeScope t.bounds d args) (some (t.frame.location i))
    have hcalled' : t.summarize (ctx.reusing reuse) (descent (ctx.reusing reuse) depth') i d args =
        ({ y.1 with memo := y.1.memo.insert (d, t.bounds.signature args) ⟨y.2.2.map Prod.snd, y.2.1⟩ },
          ⟨y.2.2.map Prod.snd, y.2.1⟩) := by
      unfold summarize Context.reusing
      dsimp only
      rw [hlookup]
      rfl
    rw [hcalled']
    have hxy : Mirrors ctx tables reuse x y :=
      hmirrored.mirrors depth' reuse d s.run t.run _ _ _ _ hs ht htrails (hscope t.bounds args h.bounds.tables' rfl) hquiet
    have hresult : y.2.2.map Prod.snd = x.2.2.map Prod.snd := congrArg _ hxy.result
    refine ⟨⟨hxy.run.visits, hxy.run.stack, fun hreuse => (hxy.run.memo hreuse).insert ?_⟩, hresult, hxy.bounds⟩
    intro b args' hb hinputs
    have hx := hfresh b args' hb hinputs
    exact ⟨hresult.trans (congrArg _ hx.result.symm), hx.bounds.symm.trans hxy.bounds⟩

theorem refusal?_eq_none {name : String} (hactive : s.run.isActive d = false)
    (hdepth : s.run.stack.length < ctx.limits.maxCallDepth) : s.refusal? ctx d name = none := by
  unfold refusal?
  rw [if_neg (by simp [hactive]), if_neg (by omega)]

/-- A call that is refused is told as such. -/
theorem told_of_refusal {name : String} {remark : Remark} (h : s.refusal? ctx d name = some remark)
    (i : InstId) : (s.tell i remark).run.told .callNotFollowed = s.run.told .callNotFollowed + 1 := by
  have hcode : remark.code = .callNotFollowed := by
    unfold refusal? at h
    split_ifs at h <;> cases h <;> rfl
  simp [tell, Run.told, Run.tell, Remark.diagnostic, hcode]

/-! ## 3. Instructions and blocks -/

end State

/-- Two states of one function, the second in a run behind that of the first. The functions
that are called from it may be entered in both. -/
structure State.Twins (ctx : Context) (tables : Bounds.Tables) (reuse : Bool)
    (depth depth' : Nat) (f : Function) (s t : State) : Prop where
  alike : s.Alike tables t
  run : s.run.Trails ctx tables reuse t.run
  function : s.frame.function = f
  inside : ctx.module.functions[s.frame.id]? = some f
  enters : ∀ d, ctx.module.Calls s.frame.id d → s.run.Enters ctx.module depth d
  enters' : ∀ d, ctx.module.Calls s.frame.id d → t.run.Enters ctx.module depth' d

namespace State

theorem Twins.next (h : s.Twins ctx tables reuse depth depth' f t) (halike : s'.Alike tables t')
    (hrun : s'.run.Trails ctx tables reuse t'.run) (hs : s.run.Grows s'.run) (ht : t.run.Grows t'.run)
    (hid : s'.frame.id = s.frame.id) (hfunction : s'.frame.function = s.frame.function) :
    s'.Twins ctx tables reuse depth depth' f t' where
  alike := halike
  run := hrun
  function := hfunction.trans h.function
  inside := by rw [hid]; exact h.inside
  enters d hd := (h.enters d (hid ▸ hd)).of_stack hs.stack
  enters' d hd := (h.enters' d (hid ▸ hd)).of_stack ht.stack

section Steps

variable (hmirrored : MirroredWithin ctx tables depth) (h : s.Twins ctx tables reuse depth depth' f t) {i : InstId}
  {inst : Inst}

include hmirrored h

/-- A call of a defined function does the same to both states. -/
theorem Twins.callDefined {callee : String} {args : List (Ty × Operand)} {d : FuncId} {g : Function}
    (hcall : f.CallsAt ctx.module i inst callee args d)
    (hquiet : s.run.Quiet ctx.limits (s.callDefined ctx (descent ctx depth) i d g args).1.run) :
    let x := s.callDefined ctx (descent ctx depth) i d g args
    let y := t.callDefined (ctx.reusing reuse) (descent (ctx.reusing reuse) depth') i d g args
    AlikeWith tables x y ∧ x.1.run.Trails ctx tables reuse y.1.run := by
  have hcalls : ctx.module.Calls s.frame.id d := ⟨_, i, inst, callee, args, h.inside, hcall⟩
  cases hrefusal : s.refusal? ctx d g.name with
  | some remark =>
    -- the refusal would have been told
    rw [callDefined_of_refusal hrefusal] at hquiet
    have hfollowed : (s.tell i remark).run.told .callNotFollowed = s.run.told .callNotFollowed := hquiet.followed
    rw [told_of_refusal hrefusal i] at hfollowed
    omega
  | none =>
    have hdepth : s.run.stack.length < ctx.limits.maxCallDepth := by
      unfold refusal? at hrefusal
      split_ifs at hrefusal with _ hdepth
      exact not_le.mp hdepth
    have hrefusal' : t.refusal? (ctx.reusing reuse) d g.name = none :=
      refusal?_eq_none (h.enters' d hcalls).isActive (h.run.stack.trans_lt hdepth)
    have hs := run_callDefined s ctx (descent ctx depth) i d g args
    have ht := run_callDefined t (ctx.reusing reuse) (descent (ctx.reusing reuse) depth') i d g args
    rw [hrefusal, Option.isNone_none, if_pos rfl] at hs
    rw [hrefusal', Option.isNone_none, if_pos rfl, h.alike.argBounds] at ht
    obtain ⟨hquiet, -⟩ := hquiet.split (grows_summarize _ (grows_descent ctx depth) s i d _) hs.grows
    obtain ⟨hrun, hresult, hscope⟩ := summarize_mirrors hmirrored h.alike h.run (h.enters d hcalls) (h.enters' d hcalls) i
      (s.argBounds args) hquiet
    refine ⟨?_, hrun.of_tells hs ht⟩
    rw [callDefined_eq_takeOver hrefusal, callDefined_eq_takeOver hrefusal', h.alike.argBounds]
    exact h.alike.takeOver hresult hscope ctx.module i d g args

theorem Twins.transfer (hi : i ∈ f.layout) (hinst : s.frame.function.inst? i = some inst)
    (hquiet : s.run.Quiet ctx.limits (s.transfer ctx (descent ctx depth) i inst).1.run) :
    let x := s.transfer ctx (descent ctx depth) i inst
    let y := t.transfer (ctx.reusing reuse) (descent (ctx.reusing reuse) depth') i inst
    AlikeWith tables x y ∧ x.1.run.Trails ctx tables reuse y.1.run := by
  by_cases hcall : ∃ callee args d, f.CallsAt ctx.module i inst callee args d
  · obtain ⟨callee, args, d, hcall⟩ := hcall
    obtain ⟨g, hg⟩ := Module.exists_of_functionNamed? hcall.defined
    have hs : s.frame.function.CallsAt ctx.module i inst callee args d := by rw [h.function]; exact hcall
    have ht : t.frame.function.CallsAt (ctx.reusing reuse).module i inst callee args d := by
      rw [h.alike.frame, h.function]
      exact hcall
    rw [transfer_call _ hs hg] at hquiet ⊢
    rw [transfer_call _ ht hg]
    exact h.callDefined hmirrored hcall hquiet
  · have hother : ∀ callee args, inst.kind = .call callee args →
        Scope.isDebugName callee = true ∨ ctx.module.functionNamed? callee = none := by
      intro callee args hkind
      by_contra hnot
      obtain ⟨hdebug, hdefined⟩ := not_or.mp hnot
      obtain ⟨d, hd⟩ := Option.ne_none_iff_exists'.mp hdefined
      exact hcall ⟨callee, args, d, hi, h.function ▸ hinst, hkind, Bool.eq_false_of_not_eq_true hdebug, hd⟩
    have hnone : ∀ {s : State} (flag : Bool), s.frame.function.inst? i = some inst →
        s.follows? (ctx.reusing flag) i = none := by
      intro s flag hinst
      unfold follows? Function.kind?
      rw [hinst, Option.map_some]
      split
      · next callee args hkind =>
        rcases hother callee args (Option.some.inj hkind) with hdebug | hdefined
        · rw [if_pos hdebug]
        · split
          · rfl
          · exact Option.bind_eq_none_iff.mpr fun d hd => by cases hdefined.symm.trans hd
      · rfl
    have hinst' : t.frame.function.inst? i = some inst := by rw [h.alike.frame]; exact hinst
    have hs := run_transfer s ctx (descent ctx depth) hinst
    have ht := run_transfer t (ctx.reusing reuse) (descent (ctx.reusing reuse) depth') hinst'
    rw [show s.follows? ctx i = none from hnone ctx.reuse hinst] at hs
    rw [hnone reuse hinst'] at ht
    have hmodule : (ctx.reusing reuse).module = ctx.module := rfl
    have hlayout : (ctx.reusing reuse).layout = ctx.layout := rfl
    exact ⟨h.alike.transfer hmodule hlayout _ _ i inst hother, h.run.of_tells hs ht⟩

theorem Twins.step (hi : i ∈ f.layout)
    (hquiet : s.run.Quiet ctx.limits (s.step ctx (descent ctx depth) i).run) :
    (s.step ctx (descent ctx depth) i).Twins ctx tables reuse depth depth' f
      (t.step (ctx.reusing reuse) (descent (ctx.reusing reuse) depth') i) := by
  cases hinst : s.frame.function.inst? i with
  | none =>
    have hstays : ∀ {s : State} (ctx : Context) (descend : Descent), s.frame.function.inst? i = none →
        s.step ctx descend i = s := by
      intro s ctx descend hinst
      unfold State.step
      rw [hinst]
    rw [hstays _ _ hinst, hstays _ _ (by rw [h.alike.frame]; exact hinst)]
    exact h
  | some inst =>
    have hinst' : t.frame.function.inst? i = some inst := by rw [h.alike.frame]; exact hinst
    have hs := grows_step ctx (grows_descent ctx depth) s i
    have ht := grows_step (ctx.reusing reuse) (grows_descent (ctx.reusing reuse) depth') t i
    rw [step_eq_note hinst] at hs hquiet ⊢
    rw [step_eq_note hinst'] at ht ⊢
    rw [note_run] at hquiet
    obtain ⟨hid, hfunction⟩ := id_transfer s ctx (descent ctx depth) i inst
    obtain ⟨hwith, hrun⟩ := h.transfer hmirrored hi hinst hquiet
    refine h.next (hwith.note i) ?_ hs ht ?_ ?_
    · rw [note_run, note_run]
      exact hrun
    · rw [note_frame, hid]
    · rw [note_frame, hfunction]

end Steps

/-- The instructions of a block do the same to both states, and the budget lasts for both. -/
theorem Twins.steps (hmirrored : MirroredWithin ctx tables depth) (l : List InstId) :
    ∀ {s t : State}, s.Twins ctx tables reuse depth depth' f t → l ⊆ f.layout →
      s.run.Quiet ctx.limits (steps ctx (descent ctx depth) l s).1.run →
      let x := steps ctx (descent ctx depth) l s
      let y := steps (ctx.reusing reuse) (descent (ctx.reusing reuse) depth') l t
      x.2 = true ∧ y.2 = true ∧ x.1.Twins ctx tables reuse depth depth' f y.1 := by
  induction l with
  | nil => exact fun h _ _ => ⟨rfl, rfl, h⟩
  | cons i rest ih =>
    intro s t h hsub hquiet
    have hdescend := grows_descent ctx depth
    rw [steps_cons] at hquiet
    have hlasts : s.run.visits < ctx.limits.maxVisits := by
      by_contra hspent
      have hstop : (s.run.tick ctx.limits s.frame.function.name).2 = false :=
        (tick_of_le (not_lt.mp hspent) _).1
      rw [hstop, if_neg Bool.false_ne_true] at hquiet
      exact absurd hquiet.visits (not_le.mpr (tick_of_le (not_lt.mp hspent) s.frame.function.name).2)
    have hgo : (s.run.tick ctx.limits s.frame.function.name).2 = true := tick_of_lt hlasts _
    have hgo' : (t.run.tick (ctx.reusing reuse).limits t.frame.function.name).2 = true :=
      tick_of_lt (h.run.visits.trans_lt hlasts) _
    rw [if_pos hgo] at hquiet
    have hticked : (s.spend ctx).Twins ctx tables reuse depth depth' f (t.spend (ctx.reusing reuse)) :=
      h.next (h.alike.withRun _ _) (h.run.tick _ _ _) (s.run.grows_tick _ _) (t.run.grows_tick _ _) rfl rfl
    obtain ⟨hvisit, hrest⟩ := hquiet.split (grows_visit ctx hdescend s i)
      (grows_steps ctx hdescend rest _)
    obtain ⟨-, hstep⟩ := hvisit.split (s.run.grows_tick ctx.limits s.frame.function.name)
      (grows_step ctx hdescend (s.spend ctx) i)
    have hstepped := hticked.step hmirrored (hsub List.mem_cons_self) hstep
    dsimp only
    rw [steps_cons, steps_cons, if_pos hgo, if_pos hgo']
    exact ih hstepped (fun j hj => hsub (List.mem_cons_of_mem _ hj)) hrest

theorem Twins.enterBlock (h : s.Twins ctx tables reuse depth depth' f t) (b : BlockId) :
    (s.enterBlock ctx.module b).Twins ctx tables reuse depth depth' f (t.enterBlock ctx.module b) := by
  have hrecord := record_enterBlock s ctx.module b
  have hs := run_enterBlock s ctx.module b
  have ht := run_enterBlock t ctx.module b
  refine h.next (h.alike.enterBlock ctx.module b) ?_ (hs ▸ .refl _) (ht ▸ .refl _) (congrArg (·.body.id) hrecord)
    (congrArg (·.body.function) hrecord)
  rw [hs, ht]
  exact h.run

theorem Twins.blocks (hmirrored : MirroredWithin ctx tables depth) (l : List Block) :
    ∀ (b : BlockId) {s t : State}, s.Twins ctx tables reuse depth depth' f t →
      l.flatMap (·.insts) ⊆ f.layout →
      s.run.Quiet ctx.limits (blocks ctx (descent ctx depth) b l s).run →
      (blocks ctx (descent ctx depth) b l s).Twins ctx tables reuse depth depth' f
        (blocks (ctx.reusing reuse) (descent (ctx.reusing reuse) depth') b l t) := by
  induction l with
  | nil => exact fun _ _ _ h _ _ => h
  | cons block rest ih =>
    intro b s t h hsub hquiet
    have hdescend := grows_descent ctx depth
    rw [List.flatMap_cons] at hsub
    obtain ⟨hblock, hrest⟩ := List.append_subset.mp hsub
    have hentered := h.enterBlock b
    have hsteps := grows_steps ctx hdescend block.insts (s.enterBlock ctx.module b)
    have hgrows : (State.steps ctx (descent ctx depth) block.insts
        (s.enterBlock ctx.module b)).1.run.Grows
        (State.blocks ctx (descent ctx depth) b (block :: rest) s).run := by
      rw [blocks_cons]
      dsimp only
      split
      · exact grows_blocks ctx hdescend rest (b + 1) (perform _ _ _ (.close b))
      · exact .refl _
    rw [← run_enterBlock s ctx.module b] at hquiet
    obtain ⟨hfirst, hsecond⟩ := hquiet.split hsteps hgrows
    obtain ⟨hgo, hgo', htwins⟩ := hentered.steps hmirrored block.insts hblock hfirst
    have hmodule : (ctx.reusing reuse).module = ctx.module := rfl
    have hclosed := htwins.next (htwins.alike.close hmodule (descent ctx depth)
      (descent (ctx.reusing reuse) depth') b) htwins.run (.refl _) (.refl _) rfl rfl
    have hs : State.blocks ctx _ b (block :: rest) s = _ := blocks_of_go hgo rest
    have ht : State.blocks (ctx.reusing reuse) _ b (block :: rest) t = _ := blocks_of_go hgo' rest
    rw [hs] at hsecond ⊢
    rw [ht]
    exact ih (b + 1) hclosed hrest hsecond

end State

/-! ## 4. Whole analyses -/

theorem Mirrors.of_none {r t : Run} {a b : Bounds} {id : FuncId} (hid : ctx.module.functions[id]? = none)
    (hrun : r.Trails ctx tables reuse t) (hbounds : a.Agree tables b) (depth depth' : Nat) (site site' : Option Location) :
    Mirrors ctx tables reuse (analyzeWithin ctx depth id r a site)
      (analyzeWithin (ctx.reusing reuse) depth' id t b site') := by
  rw [analyzeWithin_of_none hid, @analyzeWithin_of_none (ctx.reusing reuse) id hid]
  exact ⟨hrun, hbounds.same, rfl⟩

/-- Where calls lead to no function from itself, an activation depends on its scope alone. -/
theorem mirroredWithin {ctx : Context} (hfresh : ctx.reusing false = ctx) (hacyclic : ∀ c, ¬ TransGen ctx.module.Calls c c)
    (tables : Bounds.Tables) (depth : Nat) : MirroredWithin ctx tables depth := by
  induction depth with
  | zero =>
    refine ⟨hfresh, fun depth' reuse id r t a b site site' hr _ hrun hbounds _ => ?_⟩
    have hid : ctx.module.functions[id]? = none :=
      List.getElem?_eq_none (Nat.le_of_not_lt fun hlt => absurd (hr.pos hlt) (lt_irrefl 0))
    exact .of_none hid hrun hbounds 0 depth' site site'
  | succ depth ih =>
    refine ⟨hfresh, fun depth' reuse id r t a b site site' hr ht hrun hbounds hquiet => ?_⟩
    cases hid : ctx.module.functions[id]? with
    | none => exact .of_none hid hrun hbounds (depth + 1) depth' site site'
    | some f =>
      have hlt : id < ctx.module.functions.length := (List.getElem?_eq_some_iff.mp hid).1
      obtain ⟨depth', rfl⟩ := Nat.exists_eq_succ_of_ne_zero (ht.pos hlt).ne'
      rw [analyzeWithin_succ hid] at hquiet ⊢
      rw [@analyzeWithin_succ (ctx.reusing reuse) _ _ _ _ _ _ hid]
      have hstart : (State.ofCall r id f a site).Twins ctx tables reuse depth depth' f (.ofCall t id f b site') :=
        { alike := ⟨rfl, hbounds⟩
          run := ⟨hrun.visits, Nat.succ_le_succ hrun.stack, hrun.memo⟩
          function := rfl
          inside := hid
          enters := fun d hd => hr.call hacyclic hlt hd rfl
          enters' := fun d hd => ht.call hacyclic hlt hd rfl }
      have hblocks := hstart.blocks ih f.blocks 0 (List.Subset.refl _) ⟨hquiet.visits, hquiet.followed⟩
      have hleft := hblocks.alike.leave ctx.module
      refine ⟨⟨hblocks.run.visits, ?_, hblocks.run.memo⟩, hleft.bounds.same, ?_⟩
      · dsimp only [State.leave, State.restore]
        rw [List.length_drop, List.length_drop]
        exact Nat.sub_le_sub_right hblocks.run.stack 1
      · exact congrArg (fun frame : Frame => foldReturns frame.returns) hleft.frame

/-- Reusing summaries is not seen. In a module in which no function leads back to itself, let the
analysis that goes through every function afresh come to no limit: its budget lasts, and no
call is refused, which only nesting too deep could be the reason for. Then the analysis that
answers calls from earlier ones has the same result, the same interval under every key and
the same scopes of calls, those of calls inside them included. It looks at no more
instructions. -/
theorem analyzeFunction_reuse_transparent {ctx : Context} (hacyclic : ∀ c, ¬ TransGen ctx.module.Calls c c) (run : Run)
    (id : FuncId) (bounds : Bounds)
    (hbudget : (analyzeFunction (ctx.reusing false) run id bounds).1.visits ≤ ctx.limits.maxVisits)
    (hdepth : (analyzeFunction (ctx.reusing false) run id bounds).1.told .callNotFollowed =
      run.told .callNotFollowed) :
    let fresh := analyzeFunction (ctx.reusing false) run id bounds
    let reused := analyzeFunction (ctx.reusing true) run id bounds
    reused.2.2 = fresh.2.2 ∧ (∀ key, reused.2.1.get? key = fresh.2.1.get? key) ∧ reused.2.1.Same fresh.2.1 ∧
      reused.1.visits ≤ fresh.1.visits := by
  have hstart : run.restart.Enters ctx.module ctx.module.functions.length id :=
    ⟨run.begins_restart ctx.module id le_rfl, by simp [Run.restart, Run.initial]⟩
  have htrails : run.restart.Trails (ctx.reusing false) bounds.tables true run.restart :=
    ⟨le_rfl, le_rfl, fun _ => Table.all_empty⟩
  have hmirrored := @mirroredWithin (ctx.reusing false) rfl hacyclic bounds.tables ctx.module.functions.length
  obtain ⟨hrun, hsame, hresult⟩ := hmirrored.mirrors ctx.module.functions.length true id run.restart run.restart bounds bounds none none hstart hstart htrails
    ⟨.refl bounds, rfl⟩ ⟨hbudget, hdepth⟩
  exact ⟨hresult, fun key => (hsame.get? key).symm, hsame.symm, hrun.visits⟩

/-- Whether the functions of a module call only such as stand before them. -/
def Module.callsBackwards (m : Module) : Bool :=
  m.functions.zipIdx.all fun (f, c) => f.layout.all fun i =>
    match f.kind? i with
    | some (.call callee _) => Scope.isDebugName callee || (m.functionNamed? callee).all (· < c)
    | _ => true

theorem Module.acyclic_of_callsBackwards {m : Module} (h : m.callsBackwards = true) :
    ∀ c, ¬ TransGen m.Calls c c := by
  have hcalls : ∀ {c d}, m.Calls c d → d < c := by
    rintro c d ⟨f, i, inst, callee, args, hf, hcall⟩
    have hfunction := List.all_eq_true.mp h (f, c) (List.mk_mem_zipIdx_iff_getElem?.mpr hf)
    have hinst := List.all_eq_true.mp hfunction i hcall.live
    rw [Function.kind?, hcall.here, Option.map_some, hcall.kind] at hinst
    simpa [hcall.notDebug, hcall.defined] using hinst
  intro c hc
  refine lt_irrefl c (TransGen.trans_induction_on (motive := fun {c d} _ => d < c) hc hcalls ?_)
  exact fun _ _ h h' => h'.trans h

/-- A function that adds one. -/
def leaf : Function where
  name := "leaf"
  retTy := .int 32
  params := [⟨"x", .int 32⟩]
  rangeType := none
  blocks := [⟨"entry", [0, 1]⟩]
  insts := [
    ⟨some "y", .binary .add (.arg 0) (.const (.int 1)), .int 32, none, 0, false⟩,
    ⟨none, .ret (some (.int 32, .inst 0)), .void, none, 0, false⟩]

/-- A function that calls it. -/
def stem : Function where
  name := "stem"
  retTy := .int 32
  params := [⟨"x", .int 32⟩]
  rangeType := none
  blocks := [⟨"entry", [0, 1]⟩]
  insts := [
    ⟨some "r", .call "leaf" [(.int 32, .arg 0)], .int 32, none, 0, false⟩,
    ⟨none, .ret (some (.int 32, .inst 0)), .void, none, 0, false⟩]

/-- A function that calls the second with the same argument twice. -/
def crown : Function where
  name := "crown"
  retTy := .int 32
  params := []
  rangeType := none
  blocks := [⟨"entry", [0, 1, 2]⟩]
  insts := [
    ⟨some "a", .call "stem" [(.int 32, .const (.int 5))], .int 32, none, 0, false⟩,
    ⟨some "b", .call "stem" [(.int 32, .const (.int 5))], .int 32, none, 0, false⟩,
    ⟨none, .ret (some (.int 32, .inst 1)), .void, none, 0, false⟩]

/-- The three functions and the usual limits. -/
def nestedCalls : Context := ⟨⟨none, [], [], [], [leaf, stem, crown]⟩, .default, .default, true⟩

/-- The second call is answered from the first: seven instructions are looked at instead of
eleven, and the same is known. -/
theorem analyzeFunction_reuse_transparent_nested :
    let fresh := analyzeFunction (nestedCalls.reusing false) .initial 2 (.ofSeeds .empty)
    let reused := analyzeFunction (nestedCalls.reusing true) .initial 2 (.ofSeeds .empty)
    fresh.1.visits = 11 ∧ reused.1.visits = 7 ∧ reused.2.2 = fresh.2.2 ∧ reused.2.1.Same fresh.2.1 := by
  obtain ⟨hresult, -, hsame, -⟩ := analyzeFunction_reuse_transparent
    (Module.acyclic_of_callsBackwards (m := nestedCalls.module) (by decide)) .initial 2 (.ofSeeds .empty)
    (by decide +kernel) (by decide +kernel)
  exact ⟨by decide +kernel, by decide +kernel, hresult, hsame⟩

end RangedIR
