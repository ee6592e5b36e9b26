/-
RangedIR.Proofs.Analysis.UnknownOrigin — what is known behind addresses of unknown origin.

An address that was loaded or returned may point anywhere, so every store through another
address may write what it points at. Its entry is forgotten then, provided that it is memory:
a store or a binding through the address makes it so, its definition does not.
-/
import RangedIR.Proofs.Analysis.CallerValues
import RangedIR.Proofs.Analysis.Derivation

namespace RangedIR

open Relation

/-! ## 1. Losing -/

/-- The second state has all the memory of the first, and among the keys with the property it
knows nothing that the first did not know. -/
structure State.Loses (P : ValueKey → Prop) (s t : State) : Prop where
  memory : s.frame.memory ⊆ t.frame.memory
  lost : ∀ key, P key → s.bounds.get? key = none → t.bounds.get? key = none

namespace State

variable {P : ValueKey → Prop} {s t u : State}

theorem Loses.trans (h : Loses P s t) (h' : Loses P t u) : Loses P s u :=
  ⟨List.Subset.trans h.memory h'.memory, fun key hkey hnone => h'.lost key hkey (h.lost key hkey hnone)⟩

theorem Loses.of_same (hframe : t.frame.memory = s.frame.memory) (hbounds : t.bounds.ranges = s.bounds.ranges) :
    Loses P s t := by
  refine ⟨hframe ▸ List.Subset.refl _, fun _ _ hnone => ?_⟩
  unfold Bounds.get? at hnone ⊢
  rwa [hbounds]

theorem Loses.refl (s : State) : Loses P s s := .of_same rfl rfl

/-- Nothing may become known under the keys with the property. -/
def Licence.losing (P : ValueKey → Prop) : Licence := { Licence.all with known := (¬ P ·), calls := False }

theorem Changes.loses (h : Changes (.losing P) s t) : Loses P s t :=
  ⟨h.memory, fun _ hkey hnone => (h.get? id (not_not_intro hkey)).elim (·.trans hnone) And.left⟩

theorem loses_mergeChild {scope : Bounds} (hlocal : ∀ key, P key → key.isGlobal = false)
    (hscope : ∀ key, P key → scope.get? key = none) : Loses P s { s with bounds := s.bounds.mergeChild scope } :=
  ⟨List.Subset.refl _, fun key hkey hnone => (Bounds.get?_mergeChild (hlocal key hkey) (hscope key hkey)).trans hnone⟩

/-- What a call leaves behind makes something known under the keys that the called function
knows, and under the keys of arguments that point into objects of the caller. -/
theorem loses_applySummary (m : Module) (callee : FuncId) {args : List (Ty × Operand)} {scope : Bounds}
    (hlocal : ∀ key, P key → key.isGlobal = false) (hscope : ∀ key, P key → scope.get? key = none)
    (hargs : ∀ p ∈ s.pointerArgs args, p.root.isSome = true → ¬ P (s.frame.aliases.slot p.addr)) :
    Loses P s (s.applySummary m callee args scope) := by
  obtain ⟨t, hforget, -, hpointees⟩ := changes_applySummary (p := .losing P) m callee scope fun a ha hroot =>
    ⟨hargs a ha hroot, trivial⟩
  exact (hforget.loses.trans (loses_mergeChild hlocal hscope)).trans hpointees.loses

/-! ## 2. Instructions -/

end State

theorem Function.eq_inst_of_keyRoot {f : Function} {id : FuncId} {key : ValueKey} (h : f.keyRoot id key = none) :
    ∃ j, key = .inst id j := by
  cases key with
  | inst g j =>
    unfold keyRoot at h
    dsimp only at h
    split_ifs at h with hg
    exact ⟨j, by rw [hg]⟩
  | arg g j | global g => cases h

namespace State

variable {s : State} {ctx : Context} {q : ValueKey}

/-- An argument that points into an object of the caller does not have its value kept under
the key of an address of unknown origin. -/
theorem slot_ne_of_pointerArg (hs : s.frame.record.Traced) {args : List (Ty × Operand)} {p : PointerArg}
    (hp : p ∈ s.pointerArgs args) (hroot : p.root.isSome = true) :
    s.frame.keyRoot (s.frame.aliases.slot p.addr) ≠ none := by
  obtain ⟨⟨arg, i⟩, -, harg⟩ := List.mem_filterMap.mp hp
  dsimp only at harg
  split_ifs at harg
  obtain ⟨addr, haddr, rfl⟩ := Option.map_eq_some_iff.mp harg
  rw [Frame.Record.Traced.keyRoot_slot hs,
    show s.frame.keyRoot addr = s.frame.addressRoot arg.2 from Function.keyRoot_of_operand haddr]
  exact Option.isSome_iff_ne_none.mp hroot

/-- A function that is active is not called again. -/
theorem ne_of_refusal? {c d : FuncId} {name : String} (hrun : s.run.Inside ctx (.around ctx.module c))
    (hrefusal : s.refusal? ctx d name = none) : d ≠ c :=
  fun h => notMem_held_of_refusal? hrun hrefusal (List.mem_singleton.mpr h)

/-- A call makes nothing known under the key of an address of unknown origin. -/
theorem loses_callDefined {P : ValueKey → Prop} (hs : s.frame.record.Traced)
    (hrun : s.run.Inside ctx (.around ctx.module s.frame.id)) (depth : Nat) (i : InstId) (d : FuncId) (g : Function)
    (args : List (Ty × Operand)) (hP : ∀ q, P q → s.frame.keyRoot q = none) :
    Loses P s (s.callDefined ctx (descent ctx depth) i d g args).1 := by
  cases hrefusal : s.refusal? ctx d g.name with
  | some remark =>
    rw [callDefined_of_refusal hrefusal]
    exact .of_same rfl rfl
  | none =>
    obtain ⟨-, -, hscope⟩ := summarize_inside (staysInside_descent depth) hrun (ne_of_refusal? hrun hrefusal) i
      (s.argBounds args)
    unfold callDefined
    rw [hrefusal]
    dsimp only
    set called := s.summarize ctx (descent ctx depth) i d (s.argBounds args)
    have hcalled : Loses P s { s with run := called.1 } := .of_same rfl rfl
    have happly : Loses P { s with run := called.1 } (State.applySummary { s with run := called.1 } ctx.module d args
        called.2.scope) := by
      refine loses_applySummary ctx.module d (fun q hq => ?_) (fun q hq => ?_) fun p hp hroot hq => ?_
      · obtain ⟨j, rfl⟩ := Function.eq_inst_of_keyRoot (hP q hq)
        rfl
      · obtain ⟨j, rfl⟩ := Function.eq_inst_of_keyRoot (hP q hq)
        exact hscope _ fun h => h _ rfl rfl
      · exact slot_ne_of_pointerArg hs hp hroot (hP _ hq)
    refine ((hcalled.trans happly).trans ?_).trans (changes_checkRange _ trivial i g _).loses
    exact .of_same rfl rfl

/-- An instruction makes something known under the key of an address of unknown origin by a
store or a binding only, apart from its own result. -/
theorem loses_transfer (hs : s.frame.record.Traced) (hrun : s.run.Inside ctx (.around ctx.module s.frame.id))
    (depth : Nat) (i : InstId) (inst : Inst) :
    Loses (fun q => s.frame.keyRoot q = none ∧ ¬ s.StoresUnder inst q ∧ ∀ ty, ¬ s.BindsUnder inst ty q) s
      (s.transfer ctx (descent ctx depth) i inst).1 := by
  refine transfer_cases (.refl s) (fun hcall => Changes.loses (changes_transfer _
    ⟨trivial, fun _ _ => trivial, fun q hq => ⟨trivial, fun j h => ?_, ?_, trivial⟩,
      fun _ => ⟨trivial, trivial, fun _ _ _ _ => trivial⟩, ?_⟩)) fun callee args d g _ _ _ =>
    loses_callDefined hs hrun depth i d g args fun q hq => hq.1
  · cases h.1
  · rintro ⟨-, hstores, hbinds⟩
    exact hq.elim hstores fun ⟨ty, h⟩ => hbinds ty h
  · intro callee args d hkind hdebug hd
    rcases hcall callee args hkind with h | h
    · cases hdebug.symm.trans h
    · cases hd.symm.trans h

/-- Before a store, the other places of unknown origin are forgotten. -/
theorem mayOverlap_unrooted (s : State) (ptr : Operand) {addr key : ValueKey} (h : key ≠ s.frame.aliases.slot addr) :
    s.mayOverlap ptr addr key none = true := by
  unfold mayOverlap
  cases s.frame.addressRoot ptr <;> simp [h]

/-- A store through another address forgets what is known under the key of an address of
unknown origin, if the key is memory. -/
theorem get?_store_unrooted (m : Module) (value : Operand) (valueTy : Ty) {ptr : Operand} {addr : ValueKey}
    (haddr : s.frame.key? ptr = some addr) (hq : s.frame.keyRoot q = none) (hslot : s.frame.aliases.slot addr ≠ q) :
    (s.store m value valueTy ptr).bounds.get? q = if q ∈ s.frame.memory then none else s.bounds.get? q := by
  obtain ⟨j, rfl⟩ := Function.eq_inst_of_keyRoot hq
  have hforget : (s.forgetOverlaps m ptr addr).bounds.get? (.inst s.frame.id j) =
      if .inst s.frame.id j ∈ s.frame.memory then none else s.bounds.get? (.inst s.frame.id j) := by
    rw [bounds_forgetOverlaps, Frame.get?_forgetWhere, hq, mayOverlap_unrooted s ptr hslot.symm]
    by_cases hmem : .inst s.frame.id j ∈ s.frame.memory
    · rw [if_pos ⟨List.mem_append_left _ hmem, rfl⟩, if_pos hmem]
    · rw [if_neg fun h => Frame.notMem_memoryKeys rfl hmem h.1, if_neg hmem]
  have hstored : ∀ (t : State) (slot : ValueKey),
      (t.storedValue slot value).1.bounds.get? (.inst s.frame.id j) = t.bounds.get? (.inst s.frame.id j) := by
    intro t slot
    unfold storedValue storeArgument
    split
    · rfl
    · split
      · split <;> simp
      · rfl
  unfold store
  rw [haddr]
  dsimp only
  rw [slot_of_record (record_forgetOverlaps s m ptr addr)]
  refine Eq.trans (Bounds.get?_set _ _ _ _) ?_
  rw [if_neg hslot, hstored]
  exact hforget

/-- What is stored through is memory. -/
theorem mem_memory_of_storesUnder {inst : Inst} (h : s.StoresUnder inst q) (descend : Descent) (i : InstId) :
    q ∈ (s.transfer ctx descend i inst).1.frame.memory := by
  obtain ⟨value, valueTy, ptr, ptrTy, align, addr, hkind, haddr, rfl⟩ := h
  have hwrite := changes_write (p := .all) ctx.module value valueTy haddr ⟨trivial, fun _ => trivial, trivial, trivial⟩
  unfold transfer
  rw [hkind]
  exact hwrite.memory (Frame.mem_addMemory.mpr (Or.inl rfl))

/-- An address that is bound is memory. -/
theorem mem_memory_of_bindsUnder {inst : Inst} {ty : Ty} (h : s.BindsUnder inst ty q) (hty : ty.isPointer = true)
    (descend : Descent) (i : InstId) : q ∈ (s.transfer ctx descend i inst).1.frame.memory := by
  obtain ⟨callee, op, rest, d, range, addr, hkind, hdebug, hdbg, hseed, haddr, rfl⟩ := h
  unfold transfer
  rw [hkind]
  dsimp only
  unfold call
  rw [if_pos hdebug, hdbg]
  unfold bindVariable
  simp only [haddr, hseed, if_pos hty]
  split <;> exact Frame.mem_addMemory.mpr (Or.inl rfl)

end State

/-! ## 3. An activation -/

/-- An activation of a function, in which nothing is taken over from calls about the function
itself. -/
structure State.Active (ctx : Context) (c : FuncId) (f : Function) (s : State) : Prop where
  id : s.frame.id = c
  function : s.frame.function = f
  run : s.run.Inside ctx (.around ctx.module c)
  traced : s.frame.record.Traced

namespace State

variable {ctx : Context} {c : FuncId} {f : Function} {s : State} {q : ValueKey}

theorem active_ofCall {run : Run} (hmemo : ctx.reuse = true → run.memo.All fun _ summary =>
    ∀ key, key.function? = some c → summary.scope.get? key = none) (bounds : Bounds) (site : Option Location) :
    (ofCall run c f bounds site).Active ctx c f := by
  refine ⟨rfl, rfl, ⟨fun g hg => ?_, fun hreuse => (hmemo hreuse).imp fun _ summary hsummary _ key hkey => ?_⟩, ?_⟩
  · obtain rfl := List.mem_singleton.mp hg
    simp [ofCall, Run.isActive]
  · refine hsummary key ?_
    by_contra hother
    exact hkey fun h hh heq => hother (heq ▸ hh)
  · exact ⟨Table.all_empty, Table.all_empty, fun root hroot => by cases hroot⟩

/-- Calls leave nothing behind about a function that is active. -/
theorem inside_transfer (hs : s.run.Inside ctx (.around ctx.module c)) (depth : Nat) (i : InstId) (inst : Inst) :
    (s.transfer ctx (descent ctx depth) i inst).1.run.Inside ctx (.around ctx.module c) := by
  refine transfer_cases (P := (·.run.Inside ctx _)) hs (fun hcall => ?_) fun callee args d g _ _ _ => ?_
  · have hwithin : s.frame.Within fun _ => True := ⟨fun _ _ => trivial, ⟨fun _ _ _ => trivial, fun _ _ _ => trivial⟩⟩
    have hspares := spares_transfer (fun _ => trivial) (fun _ => trivial) hwithin ctx (descent ctx depth) i inst
      (fun _ _ _ _ => trivial) (fun _ => trivial) hcall
    exact hs.of_same hspares.stack hspares.memo
  · cases hrefusal : s.refusal? ctx d g.name with
    | some remark =>
      rw [callDefined_of_refusal hrefusal]
      exact hs.of_same rfl rfl
    | none =>
      obtain ⟨-, hstack, hmemo, -⟩ := callDefined_of_followed hrefusal (descent ctx depth) i args
      obtain ⟨hrun, -⟩ := summarize_inside (staysInside_descent depth) hs (ne_of_refusal? hs hrefusal) i _
      exact hrun.of_same hstack hmemo

theorem Active.step (h : s.Active ctx c f) (depth : Nat) {i : InstId} (hi : i ∈ f.layout) :
    (s.step ctx (descent ctx depth) i).Active ctx c f := by
  unfold State.step
  split
  · exact h
  · next inst hinst =>
    have htraced := @traced_transfer s ctx h.traced (descent ctx depth) i inst (h.function ▸ hi) hinst
    have hrun := inside_transfer h.run depth i inst
    have hid := id_transfer s ctx (descent ctx depth) i inst
    dsimp only
    split
    · exact ⟨hid.1.trans h.id, hid.2.trans h.function, hrun, htraced⟩
    · exact ⟨hid.1.trans h.id, hid.2.trans h.function, hrun, htraced⟩

theorem Active.tick (h : s.Active ctx c f) : (s.spend ctx).Active ctx c f := by
  obtain ⟨hstack, hmemo, -⟩ := tick_same s.run ctx.limits s.frame.function.name
  exact ⟨h.id, h.function, h.run.of_same hstack hmemo, h.traced⟩

theorem Active.perform (h : s.Active ctx c f) (depth : Nat) {a : Action} (ha : ∀ i, a = .visit i → i ∈ f.layout) :
    (s.perform ctx (descent ctx depth) a).Active ctx c f := by
  cases a with
  | enter b =>
    have hrecord := record_enterBlock s ctx.module b
    refine ⟨(congrArg (·.body.id) hrecord).trans h.id, (congrArg (·.body.function) hrecord).trans h.function, ?_, ?_⟩
    · exact (run_enterBlock s ctx.module b).symm ▸ h.run
    · exact (congrArg Frame.Record.Traced hrecord).mpr h.traced
  | visit i => exact h.tick.step depth (ha i rfl)
  | close b => exact ⟨h.id, h.function, h.run, h.traced.places, h.traced.slots, h.traced.unions⟩

/-- An instruction may make something known under a key: it has the key itself, or it stores
or binds under it. -/
def Enters (s : State) (i : InstId) (q : ValueKey) : Prop :=
  q = .inst s.frame.id i ∨ ∃ inst, s.frame.function.inst? i = some inst ∧
    (s.StoresUnder inst q ∨ ∃ ty, s.BindsUnder inst ty q)

/-- An instruction that does not enter it leaves the entry of an address of unknown origin
lost. -/
theorem Active.lost_step (h : s.Active ctx c f) (depth : Nat) {i : InstId} (hq : f.keyRoot c q = none)
    (hnone : s.bounds.get? q = none) (henters : ¬ s.Enters i q) :
    (s.step ctx (descent ctx depth) i).bounds.get? q = none := by
  obtain ⟨hown, hwrites⟩ := not_or.mp henters
  unfold State.step
  split
  · exact hnone
  · next inst hinst =>
    obtain ⟨hstores, hbinds⟩ := not_or.mp fun hw => hwrites ⟨inst, hinst, hw⟩
    have hroot : s.frame.keyRoot q = none := by
      unfold Frame.keyRoot
      rw [h.id, h.function, hq]
    have hlost := (loses_transfer h.traced (h.id ▸ h.run) depth i inst).lost q
      ⟨hroot, hstores, not_exists.mp hbinds⟩ hnone
    dsimp only
    split
    · rw [Bounds.get?_insert, (id_transfer s ctx (descent ctx depth) i inst).1, if_neg (Ne.symm hown)]
      exact hlost
    · exact hlost

theorem Active.memory_step (h : s.Active ctx c f) (depth : Nat) (i : InstId) :
    s.frame.memory ⊆ (s.step ctx (descent ctx depth) i).frame.memory := by
  unfold State.step
  split
  · exact List.Subset.refl _
  · next inst hinst =>
    have hmemory := (loses_transfer h.traced (h.id ▸ h.run) depth i inst).memory
    dsimp only
    split <;> exact hmemory

/-- What is memory stays memory. -/
theorem Active.memory_perform (h : s.Active ctx c f) (depth : Nat) (a : Action) :
    s.frame.memory ⊆ (s.perform ctx (descent ctx depth) a).frame.memory := by
  cases a with
  | enter b =>
    unfold State.perform enterBlock
    dsimp only
    split <;> exact List.Subset.refl _
  | visit i => exact h.tick.memory_step depth i
  | close b => exact List.Subset.refl _

theorem Active.performAll (h : s.Active ctx c f) (depth : Nat) {l : List Action}
    (hl : ∀ i, .visit i ∈ l → i ∈ f.layout) :
    (performAll ctx (descent ctx depth) l s).Active ctx c f ∧
      s.frame.memory ⊆ (performAll ctx (descent ctx depth) l s).frame.memory := by
  refine performAll_induction (P := fun t => t.Active ctx c f ∧ s.frame.memory ⊆ t.frame.memory) ?_
    ⟨h, List.Subset.refl _⟩
  rintro t ⟨ht, hmemory⟩ a ha
  exact ⟨ht.perform depth fun i hi => hl i (hi ▸ ha), List.Subset.trans hmemory (ht.memory_perform depth a)⟩

/-- Along some instructions, the entry of an address of unknown origin stays lost until one of
them enters it. -/
theorem Active.lost_or_enters (depth : Nat) (hq : f.keyRoot c q = none) :
    ∀ {insts : List InstId} {s : State}, s.Active ctx c f → insts ⊆ f.layout → s.bounds.get? q = none →
      (State.performAll ctx (descent ctx depth) (insts.map .visit) s).bounds.get? q = none ∨
        ∃ l w r, insts = l ++ w :: r ∧
          (State.performAll ctx (descent ctx depth) (l.map .visit) s).Enters w q
  | [], _, _, _, hnone => Or.inl hnone
  | i :: rest, s, h, hsub, hnone => by
    by_cases henters : s.Enters i q
    · exact Or.inr ⟨[], i, rest, rfl, henters⟩
    · have hlost := h.tick.lost_step depth hq hnone henters
      rcases lost_or_enters depth hq (h.perform depth (a := .visit i) fun j hj => by cases hj; exact hsub List.mem_cons_self)
        (fun j hj => hsub (List.mem_cons_of_mem _ hj)) hlost with hend | ⟨l, w, r, rfl, hw⟩
      · exact Or.inl hend
      · exact Or.inr ⟨i :: l, w, r, rfl, hw⟩

/-- What an instruction stored through or bound as an address is memory in every later
state. -/
theorem Active.mem_memory (h : s.Active ctx c f) (depth : Nat) {l r : List Action} {w : InstId} {inst : Inst}
    (hl : ∀ i, .visit i ∈ l ++ .visit w :: r → i ∈ f.layout) (hinst : f.inst? w = some inst)
    (hw : (State.performAll ctx (descent ctx depth) l s).StoresUnder inst q ∨
      ∃ ty, ty.isPointer = true ∧ (State.performAll ctx (descent ctx depth) l s).BindsUnder inst ty q) :
    q ∈ (State.performAll ctx (descent ctx depth) (l ++ .visit w :: r) s).frame.memory := by
  rw [performAll_append, performAll_cons]
  obtain ⟨hu, -⟩ := h.performAll depth (l := l) fun i hi => hl i (List.mem_append_left _ hi)
  have hnext := hu.perform depth (a := .visit w) fun i hi => by cases hi; exact hl w (by simp)
  refine (hnext.performAll depth fun i hi => hl i (by simp [hi])).2 ?_
  set u := State.performAll ctx (descent ctx depth) l s
  have htransfer : ∀ (t : State), t.frame = u.frame → t.bounds = u.bounds →
      q ∈ (t.transfer ctx (descent ctx depth) w inst).1.frame.memory := by
    intro t hframe hbounds
    rcases hw with hstores | ⟨ty, hty, hbinds⟩
    · refine mem_memory_of_storesUnder ?_ _ w
      unfold StoresUnder
      rw [hframe]
      exact hstores
    · refine mem_memory_of_bindsUnder ?_ hty _ w
      unfold BindsUnder
      rw [hframe, hbounds]
      exact hbinds
  unfold State.perform State.step
  dsimp only
  rw [hu.function, hinst]
  dsimp only
  split <;> exact htransfer _ rfl rfl

/-- Looking at a store through another address. -/
theorem Active.get?_store (h : s.Active ctx c f) (depth : Nat) {k : InstId} {stored : Inst}
    (hstored : f.inst? k = some stored) {value ptr : Operand} {valueTy ptrTy : Ty} {align : Option Nat}
    (hstore : stored.kind = .store value valueTy ptr ptrTy align) (hq : f.keyRoot c q = none) {addr : ValueKey}
    (haddr : s.frame.key? ptr = some addr) (hslot : s.frame.aliases.slot addr ≠ q) :
    (s.perform ctx (descent ctx depth) (.visit k)).bounds.get? q =
      if q ∈ s.frame.memory then none else s.bounds.get? q := by
  have hroot : (s.spend ctx).frame.keyRoot q = none := by
    show s.frame.function.keyRoot s.frame.id q = none
    rw [h.id, h.function, hq]
  have hstep : s.perform ctx (descent ctx depth) (.visit k) = (s.spend ctx).store ctx.module value valueTy ptr := by
    show (s.spend ctx).step ctx (descent ctx depth) k = _
    unfold State.step
    rw [show (s.spend ctx).frame.function = f from h.function, hstored]
    dsimp only
    unfold transfer
    rw [hstore]
  rw [hstep]
  exact get?_store_unrooted ctx.module value valueTy (show (s.spend ctx).frame.key? ptr = some addr from haddr) hroot hslot

/-- Outside unions a load yields what is known under the key of its address. -/
theorem Active.load_eq (h : s.Active ctx c f) (descend : Descent) (l : InstId) {loaded : Inst} {p : InstId} {addrTy : Ty}
    {align : Option Nat} (hload : loaded.kind = .load (.inst p) addrTy align)
    (hunion : s.frame.aliases.isUnion (.inst c p) = false) :
    (s.transfer ctx descend l loaded).2 = s.bounds.get? (s.frame.aliases.slot (.inst c p)) := by
  have hkey : s.frame.key? (.inst p) = some (.inst c p) := by rw [← h.id]; rfl
  unfold transfer
  rw [hload]
  dsimp only
  unfold load readAt
  rw [hkey, Option.bind_some, hunion]
  rfl

end State

/-! ## 4. Loads -/

/-- In a block, a store through another address is followed by a load through an address of
unknown origin. The store forgets what is known under the key of the address, if the key is
memory, and leaves it otherwise. The load yields nothing after the store, except when it is
answered from a union; when the address of the store is a literal, or has its value under the
same key; when an instruction between the two enters something under the key; and when the key
is no memory at the store, since the address has not been stored through or bound before. The
activation may be any, as long as the summaries that are there at its start know nothing of
the function. -/
theorem State.pointee_of_unknown_origin {ctx : Context} (depth : Nat) {run : Run} {c : FuncId} {f : Function}
    (bounds : Bounds) (site : Option Location)
    (hmemo : ctx.reuse = true → run.memo.All fun _ summary =>
      ∀ key, key.function? = some c → summary.scope.get? key = none)
    {b : BlockId} {block : Block} (hblock : f.blocks[b]? = some block) {done between rest : List InstId}
    {k l p : InstId} (hinsts : block.insts = done ++ k :: (between ++ l :: rest))
    {stored : Inst} (hstored : f.inst? k = some stored) {value ptr : Operand} {valueTy ptrTy : Ty} {align : Option Nat}
    (hstore : stored.kind = .store value valueTy ptr ptrTy align)
    (horigin : f.addressRoot c (.inst p) = none) :
    let start := ofCall run c f bounds site
    let before := fun insts => performAll ctx (descent ctx depth) (f.before b insts) start
    let s := before done
    let t := before (done ++ k :: between)
    let q := t.frame.aliases.slot (.inst c p)
    (∀ addr, s.frame.key? ptr = some addr → s.frame.aliases.slot addr ≠ q →
      (before (done ++ [k])).bounds.get? q = if q ∈ s.frame.memory then none else s.bounds.get? q) ∧
    ∀ loaded addrTy align, f.inst? l = some loaded → loaded.kind = .load (.inst p) addrTy align →
      (t.transfer ctx (descent ctx depth) l loaded).2 ≠ none →
      t.frame.aliases.isUnion (.inst c p) = true ∨ s.frame.key? ptr = none ∨ s.StoresUnder stored q ∨
      (∃ first w others, between = first ++ w :: others ∧ (before (done ++ k :: first)).Enters w q) ∨
      q ∉ s.frame.memory ∧ ∀ earlier w later inst, f.before b done = earlier ++ .visit w :: later →
        f.inst? w = some inst →
        ¬ (performAll ctx (descent ctx depth) earlier start).StoresUnder inst q ∧
        ∀ ty, ty.isPointer = true → ¬ (performAll ctx (descent ctx depth) earlier start).BindsUnder inst ty q := by
  intro start before s t q
  obtain ⟨tail, hscript⟩ := Function.script_eq_before hblock hinsts
  have hvisit : ∀ i, .visit i ∈ f.before b done ++ ((k :: (between ++ l :: rest)).map .visit ++ tail) → i ∈ f.layout :=
    fun i hi => Function.mem_layout_of_visit (hscript ▸ hi)
  have hdone : ∀ i, .visit i ∈ f.before b done → i ∈ f.layout := fun i hi => hvisit i (List.mem_append_left _ hi)
  have hbetween : between ⊆ f.layout := fun i hi => hvisit i (by simp [hi])
  have hstart : start.Active ctx c f := active_ofCall hmemo bounds site
  have hs : s.Active ctx c f := (hstart.performAll depth hdone).1
  -- the states from the store on
  let after := s.perform ctx (descent ctx depth) (.visit k)
  have hafter : after.Active ctx c f := hs.perform depth (a := .visit k) fun i hi => by
    cases hi
    exact hvisit k (by simp)
  have hbefore : ∀ insts, before (done ++ k :: insts) = performAll ctx (descent ctx depth) (insts.map .visit) after := by
    intro insts
    have hactions : f.before b (done ++ k :: insts) = f.before b done ++ .visit k :: insts.map .visit := by
      simp [Function.before]
    show performAll ctx (descent ctx depth) (f.before b (done ++ k :: insts)) start = _
    rw [hactions, performAll_append]
    rfl
  have ht : t.Active ctx c f := by
    show (before (done ++ k :: between)).Active ctx c f
    rw [hbefore]
    exact (hafter.performAll depth fun i hi => hbetween (by simpa using hi)).1
  have hq : f.keyRoot c q = none := by
    have hslot : t.frame.keyRoot (t.frame.aliases.slot (.inst c p)) = t.frame.keyRoot (.inst c p) :=
      Frame.Record.Traced.keyRoot_slot ht.traced
    unfold Frame.keyRoot at hslot
    rw [ht.id, ht.function] at hslot
    exact hslot.trans ((if_pos rfl).trans horigin)
  refine ⟨fun addr haddr hslot => ?_, fun loaded addrTy align _ hload hyields => ?_⟩
  · rw [hbefore []]
    exact hs.get?_store depth hstored hstore hq haddr hslot
  · cases hunion : t.frame.aliases.isUnion (.inst c p) with
    | true => exact Or.inl rfl
    | false =>
      refine Or.inr ?_
      cases haddr : s.frame.key? ptr with
      | none => exact Or.inl rfl
      | some addr =>
        refine Or.inr ?_
        by_cases hslot : s.frame.aliases.slot addr = q
        · exact Or.inl ⟨value, valueTy, ptr, ptrTy, _, addr, hstore, haddr, hslot⟩
        · refine Or.inr ?_
          by_cases hmem : q ∈ s.frame.memory
          · have hlost : after.bounds.get? q = none :=
              (hs.get?_store depth hstored hstore hq haddr hslot).trans (if_pos hmem)
            rcases Active.lost_or_enters depth hq hafter hbetween hlost with hend | ⟨first, w, others, hsplit, henters⟩
            · rw [← hbefore between] at hend
              exact absurd ((ht.load_eq _ l hload hunion).trans hend) hyields
            · exact Or.inl ⟨first, w, others, hsplit, hbefore first ▸ henters⟩
          · refine Or.inr ⟨hmem, fun earlier w later inst hsplit hinst => ?_⟩
            have hmemory : ∀ hw, q ∈ (performAll ctx (descent ctx depth) (earlier ++ .visit w :: later) start).frame.memory :=
              fun hw => hstart.mem_memory depth (fun i hi => hdone i (hsplit ▸ hi)) hinst hw
            rw [← hsplit] at hmemory
            exact ⟨fun hstores => hmem (hmemory (Or.inl hstores)),
              fun ty hty hbinds => hmem (hmemory (Or.inr ⟨ty, hty, hbinds⟩))⟩

/-! ## 5. A pointer that is loaded -/

/-- Loads the address of a global, and reads the global through it: after a store to the
global, and after stores through the address and to the global. -/
def indirect : Function where
  name := "main"
  retTy := .int 32
  params := []
  rangeType := none
  blocks := [⟨"entry", [0, 1, 2, 3, 4, 5, 6, 7, 8, 9]⟩]
  insts := [
    ⟨some "pp", .alloca (.ptr (.int 32)) none, .ptr (.ptr (.int 32)), none, 0, false⟩,
    ⟨none, .store (.const (.int 5)) (.int 32) (.global 0) (.ptr (.int 32)) none, .void, none, 0, false⟩,
    ⟨none, .store (.global 0) (.ptr (.int 32)) (.inst 0) (.ptr (.ptr (.int 32))) none, .void, none, 0, false⟩,
    ⟨some "p", .load (.inst 0) (.ptr (.ptr (.int 32))) none, .ptr (.int 32), none, 0, false⟩,
    ⟨none, .store (.const (.int 7)) (.int 32) (.global 0) (.ptr (.int 32)) none, .void, none, 0, false⟩,
    ⟨some "v", .load (.inst 3) (.ptr (.int 32)) none, .int 32, none, 0, false⟩,
    ⟨none, .store (.const (.int 3)) (.int 32) (.inst 3) (.ptr (.int 32)) none, .void, none, 0, false⟩,
    ⟨none, .store (.const (.int 9)) (.int 32) (.global 0) (.ptr (.int 32)) none, .void, none, 0, false⟩,
    ⟨some "w", .load (.inst 3) (.ptr (.int 32)) none, .int 32, none, 0, false⟩,
    ⟨none, .ret (some (.int 32, .inst 8)), .void, none, 0, false⟩]

/-- The module of the function, with a global that may be written. -/
def indirection : Context :=
  ⟨⟨none, [], [⟨"g", false, .int 32, .scalar (.int 0)⟩], [], [indirect]⟩, .default, .default, true⟩

namespace State

/-- The function after some of its instructions. -/
def indirectAfter (done : List InstId) : State :=
  performAll indirection (descent indirection 0) (indirect.before 0 done)
    (ofCall Run.initial.restart 0 indirect (.ofSeeds .empty) none)

/-- The address has been stored through, so that the store to the global makes it forgotten. -/
theorem pointee_of_unknown_origin_stored :
    indirect.addressRoot 0 (.inst 3) = none ∧
    (indirectAfter [0, 1, 2, 3, 4, 5, 6]).bounds.get? (.inst 0 3) = some ⟨3.0, 3.0⟩ ∧
    (indirectAfter [0, 1, 2, 3, 4, 5, 6, 7]).bounds.get? (.inst 0 3) = none := by
  obtain ⟨hstore, -⟩ := @pointee_of_unknown_origin indirection 0 Run.initial.restart 0 indirect (.ofSeeds .empty) none
    (fun _ => Table.all_empty) 0 _ rfl [0, 1, 2, 3, 4, 5, 6] [] [9] 7 8 3 rfl _ rfl _ _ _ _ _ rfl (by decide)
  refine ⟨by decide, by decide, ?_⟩
  have hslot : (indirectAfter [0, 1, 2, 3, 4, 5, 6, 7]).frame.aliases.slot (.inst 0 3) = .inst 0 3 := by decide
  refine (congrArg _ hslot.symm).trans ((hstore (.global 0) (by decide) (by decide)).trans (if_pos ?_))
  decide

/-- The address is known by its definition only: the store to the global leaves what is known
behind it, and the load yields what the global held before. -/
theorem loaded_pointer_keeps_stale_pointee :
    indirect.blocks.length = 1 ∧ indirect.addressRoot 0 (.inst 3) = none ∧
    indirect.kind? 4 = some (.store (.const (.int 7)) (.int 32) (.global 0) (.ptr (.int 32)) none) ∧
    indirect.kind? 5 = some (.load (.inst 3) (.ptr (.int 32)) none) ∧
    (indirectAfter [0, 1, 2, 3, 4]).bounds.get? (.global 0) = some ⟨7.0, 7.0⟩ ∧
    (indirectAfter [0, 1, 2, 3, 4]).load (.int 32) (.inst 3) = some ⟨5.0, 5.0⟩ :=
  ⟨rfl, by decide, rfl, rfl, by decide, by decide⟩

end State

end RangedIR
