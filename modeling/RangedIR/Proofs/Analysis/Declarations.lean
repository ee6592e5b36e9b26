/-
RangedIR.Proofs.Analysis.Declarations — arguments that get their range from a declaration.

A function stores an argument to a slot, and a declaration of the slot gives its range to the
argument as well. The frame notes the argument at the store and crosses it out at the
declaration. Nothing else touches the note: the slot may be overwritten in between, and the
argument still gets the range.
-/
import RangedIR.Proofs.Analysis.Record

namespace RangedIR

namespace State

variable {s : State} {ctx : Context} {descend : Descent} {m : Module} {q : ValueKey} {k : Nat}

/-! ## 1. Notes -/

/-- Everything may be changed but the notes. -/
def Licence.noteless : Licence := { Licence.all with notes := False }

theorem notes_addMemory (f : Frame) (key : ValueKey) :
    (f.addMemory key).pendingArgs = f.pendingArgs ∧ (f.addMemory key).declared = f.declared := by
  rw [Frame.addMemory_eq]
  exact ⟨rfl, rfl⟩

theorem pending_storedValue (s : State) (slot : ValueKey) (value : Operand) :
    (s.storedValue slot value).1.frame.pendingArgs.find? q = some k ↔
      (slot = q ∧ value = .arg k ∧ s.operand? value = none ∧ s.frame.declared.find? q = none) ∨
      s.frame.pendingArgs.find? q = some k ∧
        ¬ (slot = q ∧ (∃ j, value = .arg j) ∧ s.operand? value = none ∧ s.frame.declared.find? q = none) := by
  unfold storedValue storeArgument
  cases hvalue : s.operand? value with
  | some i => simp
  | none =>
    cases value with
    | arg j => cases hdeclared : s.frame.declared.find? slot <;> grind [Table.find?_insert]
    | _ => simp

/-- A store notes an argument of which nothing is known, unless the slot is declared. -/
theorem pending_store (m : Module) (value : Operand) (valueTy : Ty) {ptr : Operand} {addr : ValueKey}
    (haddr : s.frame.key? ptr = some addr) :
    (s.store m value valueTy ptr).frame.pendingArgs.find? q = some k ↔
      (s.frame.aliases.slot addr = q ∧ value = .arg k ∧
        (s.frame.forgetWhere m s.bounds (s.mayOverlap ptr addr)).operand? s.frame.id value = none ∧
        s.frame.declared.find? q = none) ∨
      s.frame.pendingArgs.find? q = some k ∧ ¬ (s.frame.aliases.slot addr = q ∧ (∃ j, value = .arg j) ∧
        (s.frame.forgetWhere m s.bounds (s.mayOverlap ptr addr)).operand? s.frame.id value = none ∧
        s.frame.declared.find? q = none) := by
  have hforget : Changes .none s (s.forgetOverlaps m ptr addr) := changes_forgetOverlaps s m ptr addr
  obtain ⟨hpending, hdeclared⟩ := hforget.notes id
  unfold store
  rw [haddr]
  refine (pending_storedValue _ _ value).trans ?_
  simp [slot_of_record (hforget.record id id), notes_addMemory, hpending, hdeclared, operand?, bounds_forgetOverlaps,
    hforget.function.1]

/-- A declaration gives its range to its operand and to the argument that is noted there, which
it crosses out. -/
theorem bindVariable_some {d : DebugBinding} {ty : Ty} {op : Operand} {rest : List (Ty × Operand)} {key : ValueKey}
    {i : Bound} (hkey : s.frame.key? op = some key) (hseed : s.bounds.seed? d.ty.baseName = some i) :
    (s.bindVariable (some d) ((ty, op) :: rest)).frame.pendingArgs.find? q =
        (if s.frame.aliases.slot key = q then none else s.frame.pendingArgs.find? q) ∧
      (s.bindVariable (some d) ((ty, op) :: rest)).bounds.get? (.arg s.frame.id k) =
        if s.frame.pendingArgs.find? (s.frame.aliases.slot key) = some k ∨ s.frame.aliases.slot key = .arg s.frame.id k
        then some i else s.bounds.get? (.arg s.frame.id k) := by
  unfold bindVariable
  simp only [hkey, hseed]
  cases hp : ty.isPointer <;> cases hfind : s.frame.pendingArgs.find? (s.frame.aliases.slot key) <;>
    simp [withAliases, notes_addMemory, hfind] <;> grind

/-! ## 2. Actions -/

/-- The action stores an argument under the key, of which nothing is known, and no range is
declared there. -/
def Defers (s : State) (m : Module) (a : Action) (q : ValueKey) (k : Nat) : Prop :=
  ∃ i inst valueTy ptr ptrTy align addr, a = .visit i ∧ s.frame.function.inst? i = some inst ∧
    inst.kind = .store (.arg k) valueTy ptr ptrTy align ∧ s.frame.key? ptr = some addr ∧
    s.frame.aliases.slot addr = q ∧
    (s.frame.forgetWhere m s.bounds (s.mayOverlap ptr addr)).get? (.arg s.frame.id k) = none ∧
    s.frame.declared.find? q = none

/-- The action decides which argument waits for a declaration under the key: it defers one, or
declares. -/
def Settles (s : State) (m : Module) (a : Action) (q : ValueKey) : Prop :=
  (∃ k, s.Defers m a q k) ∨
    ∃ i inst ty, a = .visit i ∧ s.frame.function.inst? i = some inst ∧ s.BindsUnder inst ty q

theorem pending_transfer {i : InstId} {inst : Inst} (hinst : s.frame.function.inst? i = some inst) :
    (s.transfer ctx descend i inst).1.frame.pendingArgs.find? q = some k ↔
      s.Defers ctx.module (.visit i) q k ∨
        s.frame.pendingArgs.find? q = some k ∧ ¬ s.Settles ctx.module (.visit i) q := by
  have hother : (∀ q, ¬ (s.StoresUnder inst q ∨ ∃ ty, s.BindsUnder inst ty q)) →
      (s.transfer ctx descend i inst).1.frame.pendingArgs = s.frame.pendingArgs := fun h =>
    (Changes.notes (changes_transfer (p := .noteless) descend ⟨trivial, fun _ _ => trivial, fun q hq => absurd hq (h q),
      fun _ => ⟨trivial, trivial, fun _ _ _ _ => trivial⟩, fun _ _ _ _ _ _ => ⟨trivial, fun _ => ⟨trivial, trivial⟩⟩⟩) id).1
  simp only [Settles, Defers, BindsUnder, Action.visit.injEq, hinst, exists_and_left, exists_eq_left', Option.some.injEq]
  simp only [StoresUnder, BindsUnder] at hother
  cases hkind : inst.kind with
  | store value valueTy ptr ptrTy align =>
    cases haddr : s.frame.key? ptr with
    | none => simp [hother, hkind, haddr]
    | some addr =>
      unfold transfer
      rw [hkind]
      refine (pending_store ctx.module value valueTy haddr).trans ?_
      cases value <;> simp [haddr, Bounds.operand?, ValueKey.ofOperand?]
      grind
  | call callee args =>
    by_cases hdebug : Scope.isDebugName callee = true
    · unfold transfer call
      rw [hkind]
      dsimp only
      rw [if_pos hdebug]
      rcases args with - | ⟨⟨ty, op⟩, rest⟩
      · simp [bindVariable]
      · cases hdbg : inst.dbg with
        | none => simp [bindVariable]
        | some d =>
          cases hkey : s.frame.key? op with
          | none => simp [bindVariable, hkey]
          | some key =>
            cases hseed : s.bounds.seed? d.ty.baseName with
            | none => simp [bindVariable, hkey, hseed]
            | some i =>
              rw [(bindVariable_some (q := q) (k := k) hkey hseed).1]
              simp [hdebug, hkey, hseed]
              grind
    · simp [hother, hkind, hdebug]
  | _ => simp [hother, hkind]

theorem pending_perform (a : Action) :
    (s.perform ctx descend a).frame.pendingArgs.find? q = some k ↔
      s.Defers ctx.module a q k ∨ s.frame.pendingArgs.find? q = some k ∧ ¬ s.Settles ctx.module a q := by
  cases a with
  | enter b =>
    have hpending : (s.enterBlock ctx.module b).frame.pendingArgs = s.frame.pendingArgs := by
      unfold enterBlock
      split <;> rfl
    simp [perform, hpending, Defers, Settles]
  | close b => simp [perform, Defers, Settles]
  | visit i =>
    cases hinst : s.frame.function.inst? i with
    | none => simp [perform, step, Defers, Settles, hinst]
    | some inst =>
      have hstep := @pending_transfer (s.spend ctx) ctx descend q k i inst hinst
      simp only [perform, step, hinst]
      split <;> exact hstep

/-- Of some actions, of which the latest comes first, the last that settles the key defers the
argument. -/
def Waits (ctx : Context) (descend : Descent) (s : State) (q : ValueKey) (k : Nat) : List Action → Prop
  | [] => False
  | a :: earlier =>
    (performAll ctx descend earlier.reverse s).Defers ctx.module a q k ∨
      s.Waits ctx descend q k earlier ∧ ¬ (performAll ctx descend earlier.reverse s).Settles ctx.module a q

theorem pending_performAll (hstart : s.frame.pendingArgs.find? q = none) (l : List Action) :
    (performAll ctx descend l.reverse s).frame.pendingArgs.find? q = some k ↔ s.Waits ctx descend q k l := by
  induction l with
  | nil => simp [hstart, Waits]
  | cons a earlier ih =>
    rw [List.reverse_cons, performAll_append, performAll_cons, performAll_nil, pending_perform, ih, Waits]

/-! ## 3. Declarations -/

/-- **Declarations of slots.** After any actions of a function, a declaration of a variable whose
value is kept under a key gives its range to an argument if the last action that settled the
key was a store of this argument that deferred it. To no other argument does it give a range,
unless it declares the argument itself. Stores of anything else settle nothing. -/
theorem declaration_reaches_deferred_argument (ctx : Context) (descend : Descent) (run : Run) (c : FuncId) (f : Function)
    (bounds : Bounds) (site : Option Location) (l : List Action) {s : State}
    (hs : s = performAll ctx descend l (.ofCall run c f bounds site)) {i : InstId} {inst : Inst} {callee : String}
    {ty : Ty} {op : Operand} {rest : List (Ty × Operand)} {d : DebugBinding} {key : ValueKey} {range : Bound}
    (hkind : inst.kind = .call callee ((ty, op) :: rest)) (hdebug : Scope.isDebugName callee = true)
    (hdbg : inst.dbg = some d) (hkey : s.frame.key? op = some key) (hseed : s.bounds.seed? d.ty.baseName = some range)
    (k : Nat) :
    ((ofCall run c f bounds site).Waits ctx descend (s.frame.aliases.slot key) k l.reverse →
      (s.transfer ctx descend i inst).1.bounds.get? (.arg s.frame.id k) = some range) ∧
    (¬ (ofCall run c f bounds site).Waits ctx descend (s.frame.aliases.slot key) k l.reverse →
      s.frame.aliases.slot key ≠ .arg s.frame.id k →
      (s.transfer ctx descend i inst).1.bounds.get? (.arg s.frame.id k) = s.bounds.get? (.arg s.frame.id k)) := by
  have hwaits : s.frame.pendingArgs.find? (s.frame.aliases.slot key) = some k ↔
      (ofCall run c f bounds site).Waits ctx descend (s.frame.aliases.slot key) k l.reverse := by
    rw [← pending_performAll rfl, List.reverse_reverse, ← hs]
  have htransfer : (s.transfer ctx descend i inst).1 = s.bindVariable (some d) ((ty, op) :: rest) := by
    simp [transfer, hkind, call, hdebug, hdbg]
  rw [htransfer, (bindVariable_some (q := s.frame.aliases.slot key) (k := k) hkey hseed).2, ← hwaits]
  exact ⟨fun h => if_pos (.inl h), fun h hq => if_neg (not_or.mpr ⟨h, hq⟩)⟩

end State

/-! ## 4. A slot that is overwritten -/

/-- Stores its argument and then a literal, and declares the slot. -/
def overwritten : Function where
  name := "main"
  retTy := .void
  params := [⟨"x", .int 32⟩]
  rangeType := none
  blocks := [⟨"entry", [0, 1, 2, 3, 4]⟩]
  insts := [
    ⟨some "p", .alloca (.int 32) none, .ptr (.int 32), none, 0, false⟩,
    ⟨none, .store (.arg 0) (.int 32) (.inst 0) (.ptr (.int 32)) none, .void, none, 0, false⟩,
    ⟨none, .store (.const (.int 5)) (.int 32) (.inst 0) (.ptr (.int 32)) none, .void, none, 0, false⟩,
    ⟨none, .call "llvm.dbg.declare" [(.ptr (.int 32), .inst 0)], .void, some ⟨"v", .named "T"⟩, 0, false⟩,
    ⟨none, .ret none, .void, none, 0, false⟩]

/-- The module of the function. -/
def overwriting : Context := ⟨⟨none, [], [], [], [overwritten]⟩, .default, .default, true⟩

namespace State

/-- The function after some of its instructions, where the quantity has a range. -/
def overwrittenAfter (done : List InstId) : State :=
  performAll overwriting (descent overwriting 0) (overwritten.before 0 done)
    (ofCall Run.initial.restart 0 overwritten (.ofSeeds (.ofList [("T", ⟨0, 10⟩)])) none)

/-- The store of the literal settles nothing, so the declaration reaches the argument. -/
theorem declaration_reaches_overwritten_argument :
    (overwrittenAfter [0, 1, 2]).bounds.get? (.arg 0 0) = none ∧
      ((overwrittenAfter [0, 1, 2]).transfer overwriting (descent overwriting 0) 3 overwritten.insts[3]).1.bounds.get?
        (.arg 0 0) = some ⟨0, 10⟩ := by
  refine ⟨by decide, (declaration_reaches_deferred_argument overwriting (descent overwriting 0) Run.initial.restart 0
    overwritten (.ofSeeds (.ofList [("T", ⟨0, 10⟩)])) none (overwritten.before 0 [0, 1, 2]) rfl rfl (by decide +kernel) rfl rfl
    (by decide) 0).1 ((pending_performAll rfl _).mp ?_)⟩
  decide

/-- The last store to the slot before its declaration is one of a literal, and the declaration
gives its range to the argument. -/
theorem declaration_after_overwriting :
    overwritten.blocks.length = 1 ∧
    overwritten.kind? 2 = some (.store (.const (.int 5)) (.int 32) (.inst 0) (.ptr (.int 32)) none) ∧
    overwritten.kind? 3 = some (.call "llvm.dbg.declare" [(.ptr (.int 32), .inst 0)]) ∧
    (overwrittenAfter [0, 1, 2]).bounds.get? (.inst 0 0) = some ⟨5, 5⟩ ∧
    (overwrittenAfter [0, 1, 2]).bounds.get? (.arg 0 0) = none ∧
    (overwrittenAfter [0, 1, 2, 3]).bounds.get? (.arg 0 0) = some ⟨0, 10⟩ :=
  ⟨rfl, rfl, rfl, by decide, by decide, by decide +kernel⟩

end State

end RangedIR
