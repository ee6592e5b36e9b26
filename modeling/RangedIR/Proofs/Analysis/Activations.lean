/-
RangedIR.Proofs.Analysis.Activations — the states that an analysis passes through.

An analysis goes through a function and, at its calls, through other functions, or it
takes a call from one that it has followed before. A territory says of which functions the
analysis of a function may come to know values; as long as it is closed under calls, no
activation leaves it.
-/
import RangedIR.Proofs.Analysis.Ownership

namespace RangedIR

/-! ## 1. Territories -/

/-- A live instruction calls a function that is defined. -/
structure Function.CallsAt (f : Function) (m : Module) (i : InstId) (inst : Inst) (callee : String)
    (args : List (Ty × Operand)) (d : FuncId) : Prop where
  live : i ∈ f.layout
  here : f.inst? i = some inst
  kind : inst.kind = .call callee args
  notDebug : Scope.isDebugName callee = false
  defined : m.functionNamed? callee = some d

/-- A function calls another. -/
def Module.Calls (m : Module) (c d : FuncId) : Prop :=
  ∃ f i inst callee args, m.functions[c]? = some f ∧ f.CallsAt m i inst callee args d

/-- Calls lead from one function to another, or they are the same. -/
def Module.LeadsTo (m : Module) : FuncId → FuncId → Prop := Relation.ReflTransGen m.Calls

/-- Which functions are gone through, and of which functions values are known while a
function is gone through. The held functions are active all the time, so that no call to
them is followed. -/
structure Territory (m : Module) where
  admits : FuncId → Prop
  knows : FuncId → FuncId → Prop
  held : List FuncId
  self : ∀ {c}, admits c → knows c c
  calls : ∀ {c d}, admits c → m.Calls c d → d ∉ held → admits d ∧ ∀ h, knows d h → knows c h

namespace Territory

/-- Values are known of the functions that calls lead to. -/
def ofCalls (m : Module) : Territory m where
  admits _ := True
  knows := m.LeadsTo
  held := []
  self _ := .refl
  calls _ hcall _ := ⟨trivial, fun _ h => .head hcall h⟩

/-- While a function is active, values are known of the others only. -/
def around (m : Module) (f : FuncId) : Territory m where
  admits c := c ≠ f
  knows _ h := h ≠ f
  held := [f]
  self hc := hc
  calls _ _ hd := ⟨fun h => hd (by simp [h]), fun _ hh => hh⟩

variable {m : Module} (T : Territory m)

/-- A key of the module, or of a function of which values may be known. -/
def Known (c : FuncId) (key : ValueKey) : Prop := ∀ h, key.function? = some h → T.knows c h

variable {T} {c : FuncId}

variable {key : ValueKey}

theorem known_of_ownedBy (hc : T.admits c) (hkey : key.OwnedBy c) : T.Known c key :=
  fun h hh => by rw [hkey h hh]; exact T.self hc

theorem isGlobal_of_not_known (hkey : ¬ T.Known c key) : key.isGlobal = false := by
  cases key with
  | global g => exact absurd (fun _ h => by cases h) hkey
  | inst g i | arg g i => rfl

end Territory

/-! ## 2. Runs and activations -/

/-- The held functions are active, and the calls that may be taken over stay inside. -/
structure Run.Inside (ctx : Context) (T : Territory ctx.module) (r : Run) : Prop where
  active : ∀ f ∈ T.held, r.isActive f = true
  memo : ctx.reuse = true → r.memo.All fun key summary =>
    T.admits key.1 → summary.scope.StaysIn (T.Known key.1)

/-- An activation of a function whose addresses are its own. -/
structure State.Inside (ctx : Context) (T : Territory ctx.module) (c : FuncId) (f : Function) (s : State) : Prop where
  run : s.run.Inside ctx T
  id : s.frame.id = c
  function : s.frame.function = f
  within : s.frame.Within (ValueKey.OwnedBy c)

/-- The second state is inside, at the same depth of calls, and knows what the first one
knows of the functions outside. -/
structure State.StaysInside (ctx : Context) (T : Territory ctx.module) (c : FuncId) (f : Function) (s t : State) :
    Prop where
  inside : t.Inside ctx T c f
  stack : t.run.stack = s.run.stack
  bounds : ∀ key, ¬ T.Known c key → t.bounds.get? key = s.bounds.get? key

/-- Going on inside a function stays in its territory. -/
def Descent.StaysInside (ctx : Context) (T : Territory ctx.module) (descend : Descent) : Prop :=
  ∀ c run bounds site, T.admits c → run.Inside ctx T → bounds.StaysIn (T.Known c) →
    (descend c run bounds site).1.Inside ctx T ∧ (descend c run bounds site).1.stack = run.stack ∧
      (descend c run bounds site).2.1.StaysIn (T.Known c)

section Inside

variable {ctx : Context} {T : Territory ctx.module} {c d : FuncId} {f : Function} {s t u : State} {descend : Descent}

theorem Run.Inside.of_same {r r' : Run} (h : r.Inside ctx T) (hstack : r'.stack = r.stack) (hmemo : r'.memo = r.memo) :
    r'.Inside ctx T := by
  refine ⟨fun g hg => ?_, fun hreuse => by rw [hmemo]; exact h.memo hreuse⟩
  unfold Run.isActive
  rw [hstack]
  exact h.active g hg

/-- Another activation keeps the held functions active. -/
theorem Run.Inside.push {r : Run} (h : r.Inside ctx T) (a : Activation) :
    ({ r with stack := a :: r.stack } : Run).Inside ctx T :=
  ⟨fun g hg => by simp [Run.isActive, List.any_cons, show r.stack.any (·.function == g) = true from h.active g hg],
    h.memo⟩

namespace State

theorem StaysInside.trans (h : StaysInside ctx T c f s t) (h' : StaysInside ctx T c f t u) :
    StaysInside ctx T c f s u :=
  ⟨h'.inside, h'.stack.trans h.stack, fun key hkey => (h'.bounds key hkey).trans (h.bounds key hkey)⟩

theorem StaysInside.of_spares (hs : s.Inside ctx T c f) (hc : T.admits c) (h : Spares (ValueKey.OwnedBy c) s t) :
    StaysInside ctx T c f s t where
  inside := ⟨hs.run.of_same h.stack h.memo, h.id.trans hs.id, h.function.trans hs.function, h.within⟩
  stack := h.stack
  bounds key hkey := h.bounds key fun howned => hkey (Territory.known_of_ownedBy hc howned)

/-! ## 3. Calls -/

/-- A scope for a function that is called knows globals and arguments. -/
theorem staysIn_calleeScope {Q : ValueKey → Prop} (hglobal : ∀ g, Q (.global g)) (hargs : ∀ i, Q (.arg d i)) (b : Bounds)
    (args : List (Option Bound)) : (calleeScope b d args).StaysIn Q := by
  have hchild : b.child.StaysIn Q := by
    intro key hkey
    refine (Table.find?_filter b.ranges (·.isGlobal) key).trans ?_
    cases key with
    | global g => exact absurd (hglobal g) hkey
    | inst g i | arg g i => rfl
  refine List.foldlRecOn (motive := fun b : Bounds => b.StaysIn Q) _ _ hchild fun b hb e _ => ?_
  obtain ⟨_ | a, i⟩ := e
  · exact hb
  · intro key hkey
    show (b.insert (.arg d i) a).get? key = none
    rw [Bounds.get?_insert, if_neg, hb key hkey]
    rintro rfl
    exact hkey (hargs i)

/-- Whether it was followed before or is followed now, what a call leaves behind stays in
the territory of the function that is called. -/
theorem summarize_inside (hdescend : descend.StaysInside ctx T) (hs : s.run.Inside ctx T) (hd : T.admits d)
    (i : InstId) (args : List (Option Bound)) :
    (s.summarize ctx descend i d args).1.Inside ctx T ∧
      (s.summarize ctx descend i d args).1.stack = s.run.stack ∧
      (s.summarize ctx descend i d args).2.scope.StaysIn (T.Known d) := by
  unfold summarize
  dsimp only
  split
  next summary hmemo =>
    split_ifs at hmemo with hreuse
    exact ⟨hs, rfl, (hs.memo hreuse).find? hmemo hd⟩
  next =>
    obtain ⟨hrun, hstack, hscope⟩ := hdescend d s.run (calleeScope s.bounds d args) (some (s.frame.location i)) hd hs
      (staysIn_calleeScope (fun g => Territory.known_of_ownedBy hd (ValueKey.ownedBy_global d g))
        (fun i => Territory.known_of_ownedBy hd (ValueKey.ownedBy_arg d i)) s.bounds args)
    exact ⟨⟨hrun.active, fun hreuse => (hrun.memo hreuse).insert fun _ => hscope⟩, hstack, hscope⟩

theorem isActive_of_refusal? {name : String} (h : s.refusal? ctx d name = none) : s.run.isActive d = false := by
  unfold refusal? at h
  split_ifs at h with hactive
  exact Bool.eq_false_of_not_eq_true hactive

/-- A held function is active, so it is not called. -/
theorem notMem_held_of_refusal? {name : String} (hs : s.run.Inside ctx T) (h : s.refusal? ctx d name = none) :
    d ∉ T.held :=
  fun hmem => absurd (hs.active d hmem) (by rw [isActive_of_refusal? h]; exact Bool.false_ne_true)

theorem checkRange_same (s : State) (i : InstId) (callee : Function) (result : Option Bound) :
    (s.checkRange i callee result).bounds = s.bounds ∧ (s.checkRange i callee result).frame = s.frame ∧
      (s.checkRange i callee result).run.stack = s.run.stack ∧ (s.checkRange i callee result).run.memo = s.run.memo := by
  unfold checkRange
  split
  · split
    · split_ifs <;> exact ⟨rfl, rfl, rfl, rfl⟩
    · exact ⟨rfl, rfl, rfl, rfl⟩
  · exact ⟨rfl, rfl, rfl, rfl⟩

variable {i : InstId} {inst : Inst} {g : Function} {callee : String} {args : List (Ty × Operand)}

theorem transfer_call (descend : Descent) (hcall : s.frame.function.CallsAt ctx.module i inst callee args d)
    (hg : ctx.module.functions[d]? = some g) :
    s.transfer ctx descend i inst = s.callDefined ctx descend i d g args := by
  unfold transfer
  rw [hcall.kind]
  dsimp only
  unfold call
  rw [if_neg (by simp [hcall.notDebug]), hcall.defined]
  dsimp only
  rw [hg]

/-- A call that is not followed is told, and that is all. -/
theorem callDefined_of_refusal {remark : Remark}
    (h : s.refusal? ctx d g.name = some remark) (descend : Descent) (i : InstId) (args : List (Ty × Operand)) :
    s.callDefined ctx descend i d g args = (s.tell i remark, none) := by
  unfold callDefined
  rw [h]
  rfl

/-- A call that is followed changes the memory of the caller, and what is known of the
functions that its summary knows. -/
theorem callDefined_of_followed (h : s.refusal? ctx d g.name = none) (descend : Descent)
    (i : InstId) (args : List (Ty × Operand)) :
    let t := (s.callDefined ctx descend i d g args).1
    let called := s.summarize ctx descend i d (s.argBounds args)
    KeepsPlaces s t ∧ t.run.stack = called.1.stack ∧ t.run.memo = called.1.memo ∧
      (∀ Q, s.frame.Within Q →
        (∀ arg ∈ args, arg.1.isPointer = true → ∀ addr, s.frame.key? arg.2 = some addr → Q addr) → t.frame.Within Q) ∧
      ∀ key, key.isGlobal = false → key ∉ t.frame.memory →
        ∃ b : Bounds, b.get? key = s.bounds.get? key ∧
          t.bounds.get? key = (b.mergeChild called.2.scope).get? key := by
  intro t called
  let s₁ : State := { s with run := called.1 }
  let s₂ : State := s₁.applySummary ctx.module d args called.2.scope
  let s₃ : State :=
    { s₂ with bounds := s₂.bounds.recordSite (siteName g.name (s.argBounds args)) called.2.scope }
  have ht : t = s₃.checkRange i g called.2.result := by
    simp only [t, callDefined, h]
    rfl
  obtain ⟨hbounds, hframe, hstack, hmemo⟩ := checkRange_same s₃ i g called.2.result
  obtain ⟨hrun, hplaces, hkeeps⟩ := applySummary_keeps s₁ ctx.module d args called.2.scope
  have hkept : KeepsPlaces s t := by
    rw [ht]
    exact KeepsPlaces.trans ⟨hplaces.id, hplaces.function, hplaces.places, hplaces.slots⟩
      (.of_record (congrArg Frame.record hframe))
  refine ⟨hkept, ?_⟩
  rw [ht, hframe, hstack, hmemo, hbounds]
  refine ⟨by rw [hrun], by rw [hrun], fun Q hQ hargs => ?_, hkeeps⟩
  have hQ' : s₁.frame.Within Q := hQ
  exact within_applySummary hQ' ctx.module d hargs called.2.scope

/-! ## 4. Instructions and blocks -/

theorem callDefined_inside (hdescend : descend.StaysInside ctx T) (hc : T.admits c)
    (hid : ctx.module.functions[c]? = some f) (hs : s.Inside ctx T c f)
    (hcall : f.CallsAt ctx.module i inst callee args d) (g : Function) :
    StaysInside ctx T c f s (s.callDefined ctx descend i d g args).1 := by
  cases hrefusal : s.refusal? ctx d g.name with
  | some remark =>
    rw [callDefined_of_refusal hrefusal]
    exact ⟨⟨hs.run.of_same rfl rfl, hs.id, hs.function, hs.within⟩, rfl, fun _ _ => rfl⟩
  | none =>
    obtain ⟨hplaces, hstack, hmemo, hwithin, hkeeps⟩ := callDefined_of_followed hrefusal descend i args
    obtain ⟨hd, hknows⟩ := T.calls hc ⟨f, i, inst, callee, args, hid, hcall⟩ (notMem_held_of_refusal? hs.run hrefusal)
    obtain ⟨hrun, hsame, hscope⟩ := summarize_inside hdescend hs.run hd i (s.argBounds args)
    have hinside := hwithin (ValueKey.OwnedBy c) hs.within fun arg _ _ addr haddr => by
      rw [← hs.id]
      exact ValueKey.ownedBy_of_operand haddr
    refine ⟨⟨hrun.of_same hstack hmemo, hplaces.id.trans hs.id, hplaces.function.trans hs.function, hinside⟩,
      hstack.trans hsame, fun key hkey => ?_⟩
    have hlocal := Territory.isGlobal_of_not_known hkey
    obtain ⟨b, hb, hmerged⟩ := hkeeps key hlocal fun hmem =>
      hkey (Territory.known_of_ownedBy hc (hinside.memory key hmem))
    have hnone := hscope key fun hknown => hkey fun h hh => hknows h (hknown h hh)
    exact hmerged.trans ((Bounds.get?_mergeChild hlocal hnone).trans hb)

theorem transfer_inside (hdescend : descend.StaysInside ctx T) (hc : T.admits c)
    (hid : ctx.module.functions[c]? = some f) (hs : s.Inside ctx T c f) (hi : i ∈ f.layout)
    (hinst : f.inst? i = some inst) : StaysInside ctx T c f s (s.transfer ctx descend i inst).1 := by
  refine transfer_cases (.of_spares hs hc (spares_refl hs.within)) (fun hcall => ?_) fun callee args d g hkind hdebug hd =>
    callDefined_inside hdescend hc hid hs ⟨hi, hinst, hkind, hdebug, hd⟩ g
  obtain rfl := hs.id
  exact .of_spares hs hc (spares_transfer (ValueKey.ownedBy_global _) (ValueKey.ownedBy_arg _) hs.within ctx descend i
    inst (fun _ _ _ => ValueKey.ownedBy_of_operand) (fun _ => ValueKey.ownedBy_inst _ i) hcall)

theorem step_inside (hdescend : descend.StaysInside ctx T) (hc : T.admits c)
    (hid : ctx.module.functions[c]? = some f) (hs : s.Inside ctx T c f) (hi : i ∈ f.layout) :
    StaysInside ctx T c f s (s.step ctx descend i) := by
  unfold step
  rw [hs.function]
  cases hinst : f.inst? i with
  | none => exact .of_spares hs hc (spares_refl hs.within)
  | some inst =>
    have htransfer := transfer_inside hdescend hc hid hs hi hinst
    dsimp only
    split
    next r hr =>
      have hown : (ValueKey.inst (s.transfer ctx descend i inst).1.frame.id i).OwnedBy c := by
        rw [htransfer.inside.id]
        exact ValueKey.ownedBy_inst c i
      exact htransfer.trans (.of_spares htransfer.inside hc (spares_insert htransfer.inside.within hown r))
    next => exact htransfer

theorem restore_inside (hc : T.admits c) (hs : s.Inside ctx T c f) (mem : MemoryState) :
    StaysInside ctx T c f s (s.restore ctx.module mem) where
  inside := ⟨hs.run.of_same rfl rfl, hs.id, hs.function, ⟨hs.within.memory, ⟨hs.within.aliases.places,
    hs.within.aliases.slots⟩⟩⟩
  stack := rfl
  bounds key hkey := by
    refine (Frame.get?_restoreSlots s.frame ctx.module s.bounds mem key).trans (if_neg ?_)
    refine Frame.notMem_memoryKeys (Territory.isGlobal_of_not_known hkey) fun hmem => hkey ?_
    exact Territory.known_of_ownedBy hc (hs.within.memory key hmem)

theorem enterBlock_inside (hc : T.admits c) (hs : s.Inside ctx T c f) (b : BlockId) :
    StaysInside ctx T c f s (s.enterBlock ctx.module b) := by
  unfold enterBlock
  split
  · exact restore_inside hc hs _
  · exact .of_spares hs hc (spares_refl hs.within)

theorem leave_inside (hc : T.admits c) (hs : s.Inside ctx T c f) :
    StaysInside ctx T c f s (s.leave ctx.module) := restore_inside hc hs _

theorem tick_inside (hs : s.Inside ctx T c f) : StaysInside ctx T c f s (s.spend ctx) := by
  obtain ⟨hstack, hmemo, -⟩ := tick_same s.run ctx.limits s.frame.function.name
  exact ⟨⟨hs.run.of_same hstack hmemo, hs.id, hs.function, hs.within⟩, hstack, fun _ _ => rfl⟩

theorem close_inside (hs : s.Inside ctx T c f) (b : BlockId) :
    StaysInside ctx T c f s (s.perform ctx descend (.close b)) :=
  ⟨⟨hs.run, hs.id, hs.function, ⟨hs.within.memory, hs.within.aliases⟩⟩, rfl, fun _ _ => rfl⟩

/-! ## 5. Activations -/

theorem blocks_inside (hdescend : descend.StaysInside ctx T) (hc : T.admits c)
    (hid : ctx.module.functions[c]? = some f) (hs : s.Inside ctx T c f) :
    StaysInside ctx T c f s (blocks ctx descend 0 f.blocks s) :=
  blocks_induction (fun _ b ht => ht.trans (enterBlock_inside hc ht.inside b))
    (fun _ ht => ht.trans (tick_inside ht.inside)) (fun _ b ht => ht.trans (close_inside ht.inside b)) f.blocks 0 s
    (fun _ ht _ hi => ht.trans (step_inside hdescend hc hid ht.inside hi))
    (.of_spares hs hc (spares_refl hs.within))

theorem ofCall_inside {run : Run} (hrun : run.Inside ctx T) (f : Function) (bounds : Bounds) (site : Option Location) :
    (ofCall run c f bounds site).Inside ctx T c f :=
  ⟨hrun.push ⟨c, site⟩, rfl, rfl, Frame.within_start f (ValueKey.ownedBy_arg c)⟩

end State

/-- Going through a function, with all the calls that are followed from it, stays in its
territory. -/
theorem staysInside_descent (depth : Nat) : (descent ctx depth).StaysInside ctx T := by
  induction depth with
  | zero => exact fun c run bounds site _ hrun hbounds => ⟨hrun, rfl, hbounds⟩
  | succ depth ih =>
    intro c run bounds site hc hrun hbounds
    unfold descent
    cases hid : ctx.module.functions[c]? with
    | none =>
      rw [analyzeWithin, hid]
      exact ⟨hrun, rfl, hbounds⟩
    | some f =>
      rw [analyzeWithin_succ hid]
      have hblocks := State.blocks_inside ih hc hid (State.ofCall_inside hrun f bounds site)
      have hleave := hblocks.trans (State.leave_inside hc hblocks.inside)
      have hstack := hleave.stack
      refine ⟨⟨fun g hg => ?_, hleave.inside.run.memo⟩, ?_, fun key hkey => ?_⟩
      · unfold Run.isActive
        dsimp only
        rw [hstack]
        exact hrun.active g hg
      · dsimp only
        rw [hstack]
        rfl
      · exact (hleave.bounds key hkey).trans (hbounds key hkey)

end Inside

/-! ## 6. States that are reached -/

/-- The state in which a function is begun at a call. -/
def State.atCall (s : State) (i : InstId) (args : List (Ty × Operand)) (d : FuncId) (g : Function) : State :=
  .ofCall s.run d g (calleeScope s.bounds d (args.map fun a => s.operand? a.2)) (some (s.frame.location i))

/-- The states that the analysis of a module passes through, each with the depth of calls
that it may still follow: the start of the function that is asked for, what blocks and
instructions make of a state, and the starts of functions at calls that are followed. The
order of blocks and instructions is left open. -/
inductive State.Reachable (ctx : Context) : Nat → State → Prop
  | root {c : FuncId} {f : Function} (run : Run) (bounds : Bounds) : ctx.module.functions[c]? = some f →
      Reachable ctx (ctx.module.functions.length - 1) (.ofCall run.restart c f bounds none)
  | enter {depth : Nat} {s : State} (b : BlockId) : Reachable ctx depth s →
      Reachable ctx depth (s.enterBlock ctx.module b)
  | tick {depth : Nat} {s : State} : Reachable ctx depth s →
      Reachable ctx depth { s with run := (s.run.tick ctx.limits s.frame.function.name).1 }
  | step {depth : Nat} {s : State} {i : InstId} : Reachable ctx depth s → i ∈ s.frame.function.layout →
      Reachable ctx depth (s.step ctx (descent ctx depth) i)
  | close {depth : Nat} {s : State} (b : BlockId) : Reachable ctx depth s →
      Reachable ctx depth (s.perform ctx (descent ctx depth) (.close b))
  | call {depth : Nat} {s : State} {i : InstId} {inst : Inst} {callee : String} {args : List (Ty × Operand)}
      {d : FuncId} {g : Function} : Reachable ctx (depth + 1) s →
      s.frame.function.CallsAt ctx.module i inst callee args d → ctx.module.functions[d]? = some g →
      s.refusal? ctx d g.name = none → Reachable ctx depth (s.atCall i args d g)

variable {ctx : Context} {depth : Nat} {s : State}

/-- A state that is reached is one of an activation of a function of the module, which is
active; values are known of the functions that calls lead to. -/
theorem State.Reachable.inside (h : s.Reachable ctx depth) :
    ctx.module.functions[s.frame.id]? = some s.frame.function ∧ s.run.isActive s.frame.id = true ∧
      s.Inside ctx (.ofCalls ctx.module) s.frame.id s.frame.function := by
  -- what is shown of a state that an action leads to
  have hmove : ∀ {s t : State}, (ctx.module.functions[s.frame.id]? = some s.frame.function ∧
      s.run.isActive s.frame.id = true ∧ s.Inside ctx (.ofCalls ctx.module) s.frame.id s.frame.function) →
      StaysInside ctx (.ofCalls ctx.module) s.frame.id s.frame.function s t →
      ctx.module.functions[t.frame.id]? = some t.frame.function ∧ t.run.isActive t.frame.id = true ∧
        t.Inside ctx (.ofCalls ctx.module) t.frame.id t.frame.function := by
    rintro s t ⟨hid, hactive, -⟩ hstays
    have hinside := hstays.inside
    rw [hinside.id, hinside.function]
    refine ⟨hid, ?_, hinside⟩
    unfold Run.isActive
    rw [hstays.stack]
    exact hactive
  have hstart : ∀ (run : Run) (c : FuncId) (f : Function) (bounds : Bounds) (site : Option Location),
      (ofCall run c f bounds site).run.isActive c = true := fun run c f bounds site => by
    simp [ofCall, Run.isActive]
  induction h with
  | @root c f run bounds hid =>
    refine ⟨hid, hstart _ c f bounds none, ofCall_inside ⟨fun g hg => ?_, fun _ => Table.all_empty⟩ f bounds none⟩
    cases hg
  | enter b _ ih => exact hmove ih (enterBlock_inside trivial ih.2.2 b)
  | tick _ ih => exact hmove ih (tick_inside ih.2.2)
  | step _ hi ih => exact hmove ih (step_inside (staysInside_descent _) trivial ih.1 ih.2.2 hi)
  | close b _ ih => exact hmove ih (close_inside ih.2.2 b)
  | call _ _ hid _ ih => exact ⟨hid, hstart _ _ _ _ _, ofCall_inside ih.2.2.run _ _ _⟩

/-- An instruction is looked at in its function. -/
theorem State.Reachable.frame_step (hs : s.Reachable ctx depth) {i : InstId}
    (hi : i ∈ s.frame.function.layout) :
    (s.step ctx (descent ctx depth) i).frame.id = s.frame.id ∧
      (s.step ctx (descent ctx depth) i).frame.function = s.frame.function := by
  obtain ⟨hid, -, hinside⟩ := hs.inside
  have hstep := (step_inside (staysInside_descent depth) trivial hid hinside hi).inside
  exact ⟨hstep.id, hstep.function⟩

/-- Instructions of its function lead from a state that is reached to another one. -/
theorem State.Reachable.foldl_step (l : List InstId) {s : State} (hs : s.Reachable ctx depth)
    (hl : ∀ i ∈ l, i ∈ s.frame.function.layout) :
    (l.foldl (fun s i => s.step ctx (descent ctx depth) i) s).Reachable ctx depth ∧
      (l.foldl (fun s i => s.step ctx (descent ctx depth) i) s).frame.function = s.frame.function := by
  refine List.foldlRecOn (motive := fun t : State => t.Reachable ctx depth ∧ t.frame.function = s.frame.function) _ _
    ⟨hs, rfl⟩ fun t ht i hi => ?_
  have hlive : i ∈ t.frame.function.layout := ht.2 ▸ hl i hi
  exact ⟨ht.1.step hlive, (ht.1.frame_step hlive).2.trans ht.2⟩

end RangedIR
