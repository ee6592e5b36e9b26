/-
RangedIR.Proofs.Analysis.CellAnalysis — the analysis of functions on words in cells.

No alias is ever entered, so the interval under the key of an alloca is the interval
of its cell, and every action changes what is known under at most one key besides the
memory that it puts back.
-/
import RangedIR.Proofs.Analysis.DirectMemory
import RangedIR.Proofs.Analysis.Memory
import RangedIR.Proofs.Analysis.Script
import RangedIR.Proofs.Code.Paths

namespace RangedIR

open Number RangedIR.Frame

/-! ## 1. States -/

/-- The key of a cell, or of the memory behind an address parameter. -/
def Function.IsSlot (f : Function) (id : FuncId) (key : ValueKey) : Prop :=
  (∃ a bits, key = .inst id a ∧ f.cellBits? (.inst a) = some bits) ∨
    ∃ k p, key = .arg id k ∧ f.params[k]? = some p ∧ p.ty.isPointer = true

/-- A memory state of a function on cells: besides globals it knows cells only. -/
def MemoryState.OfCells (f : Function) (id : FuncId) (memory : List ValueKey) (e : MemoryState) : Prop :=
  ∀ key i, e.slots.find? key = some i →
    key.isGlobal = true ∨ ∃ a bits, key = .inst id a ∧ f.cellBits? (.inst a) = some bits ∧ key ∈ memory

/-- A state of the analysis of a function on cells. -/
structure Tidy (f : Function) (id : FuncId) (seeds : SeedTable) (s : State) : Prop where
  frameId : s.frame.id = id
  function : s.frame.function = f
  predecessors : s.frame.predecessors = f.predecessors
  aliases : s.frame.aliases = .empty
  declared : s.frame.declared = .empty
  pendingArgs : ∀ k, s.frame.pendingArgs.find? (.arg id k) = none
  memory : ∀ key ∈ s.frame.memory, f.IsSlot id key
  sameSeeds : s.bounds.seeds = seeds
  args : ∀ k i, s.bounds.get? (.arg id k) = some i → i ∈ f.bindings seeds k
  cells : ∀ a bits i, f.cellBits? (.inst a) = some bits → s.bounds.get? (.inst id a) = some i →
    .inst id a ∈ s.frame.memory
  exits : ∀ b e, s.frame.exits.find? b = some e → e.OfCells f id s.frame.memory

namespace Function

variable {f : Function} {id : FuncId}

variable {a : InstId} {bits : Nat}

theorem addressRoot_cell (h : f.cellBits? (.inst a) = some bits) :
    f.addressRoot id (.inst a) = some (.inst id a) := by
  obtain ⟨_, align, heq, hk, -⟩ := cellBits?_eq_some.mp h
  cases heq
  simp [addressRoot, root?, rootWithin, next?, object?, hk]

theorem keyRoot_cell (h : f.cellBits? (.inst a) = some bits) :
    f.keyRoot id (.inst id a) = some (.inst id a) := by
  simp [keyRoot, addressRoot_cell h]

/-- Every slot is an object of its own. -/
theorem IsSlot.keyRoot {key : ValueKey} (h : f.IsSlot id key) : f.keyRoot id key = some key := by
  rcases h with ⟨a, bits, rfl, ha⟩ | ⟨k, p, rfl, -, -⟩
  · exact keyRoot_cell ha
  · rfl

end Function

namespace Tidy

variable {f : Function} {id : FuncId} {seeds : SeedTable} {s : State} (hs : Tidy f id seeds s)

include hs

theorem withRun (run : Run) : Tidy f id seeds { s with run := run } := { hs with }

theorem addressRoot_cell {a : InstId} {bits : Nat} (ha : f.cellBits? (.inst a) = some bits) :
    s.frame.addressRoot (.inst a) = some (.inst id a) := by
  rw [Frame.addressRoot, hs.frameId, hs.function]
  exact Function.addressRoot_cell ha

/-- Where no alias is entered, every key is its own slot. -/
theorem slot (key : ValueKey) : s.frame.aliases.slot key = key := by
  rw [hs.aliases]
  rfl

theorem keyRoot (key : ValueKey) : s.frame.keyRoot key = f.keyRoot id key := by
  rw [Frame.keyRoot, hs.frameId, hs.function]

variable {m : Module} {key : ValueKey}

/-- The memory of the module and of the function consists of objects. -/
theorem keyRoot_of_mem (h : key ∈ s.frame.memoryKeys m) :
    s.frame.keyRoot key = some key := by
  rw [hs.keyRoot]
  rcases List.mem_append.mp h with h | h
  · exact (hs.memory key h).keyRoot
  · obtain ⟨h, -⟩ := List.mem_filter.mp h
    obtain ⟨g, -, rfl⟩ := List.mem_map.mp h
    rfl

omit hs in
theorem mem_memoryKeys {g : FuncId} (hg : key.function? = some g) :
    key ∈ s.frame.memoryKeys m ↔ key ∈ s.frame.memory := by
  unfold memoryKeys
  rw [List.mem_append, or_iff_left]
  intro h
  obtain ⟨h, -⟩ := List.mem_filter.mp h
  obtain ⟨n, -, rfl⟩ := List.mem_map.mp h
  cases hg

theorem operand?_inst (j : InstId) :
    s.operand? (.inst j) = s.bounds.get? (.inst id j) := by
  rw [State.operand?, hs.frameId]
  rfl

theorem operand?_arg (k : Nat) :
    s.operand? (.arg k) = s.bounds.get? (.arg id k) := by
  rw [State.operand?, hs.frameId]
  rfl

end Tidy

theorem State.operand?_congr {s t : State} (hid : t.frame.id = s.frame.id)
    (h : ∀ key, t.bounds.get? key = s.bounds.get? key) (op : Operand) : t.operand? op = s.operand? op := by
  unfold State.operand? Bounds.operand?
  cases op with
  | inst i | arg k | global g => simp only [ValueKey.ofOperand?, Option.bind_some, h, hid]
  | const c => rfl
  | undef => rfl

/-! ## 2. Instructions -/

namespace State

/-- The key under which an instruction of a function on cells records something. -/
def touched (id : FuncId) (i : InstId) : InstKind → ValueKey
  | .store _ _ (.inst a) _ _ => .inst id a
  | .call _ [(_, .arg k)] => .arg id k
  | _ => .inst id i

/-- What an instruction finds out about its result. -/
def result? (s : State) (inst : Inst) : Option Bound :=
  match inst.kind with
  | .binary op l r => (Transfer.binary op inst.ty s.operand? l r).value
  | .cast op v src => (s.operand? v).bind fun x => (Transfer.cast op src inst.ty x).value
  | .load ptr _ _ => s.operand? ptr
  | .icmp p _ l r => do pure (p.decide (← s.operand? l) (← s.operand? r)).bound
  | .phi incoming => s.phi incoming
  | .call .. => inst.dbg.bind fun d => s.bounds.seed? d.ty.baseName
  | _ => none

/-- What is known under the touched key after an instruction. A store replaces what was
known, the other instructions replace it by what they find out. -/
def after (s : State) (id : FuncId) (i : InstId) (inst : Inst) : Option Bound :=
  match inst.kind with
  | .store v _ _ _ _ => s.operand? v
  | k => (s.result? inst).or (s.bounds.get? (touched id i k))

/-- What a return adds to the values returned. -/
def returned (s : State) (inst : Inst) : List (Option (Operand × Bound)) :=
  match inst.kind with
  | .ret v => [v.bind fun e => (s.operand? e.2).map fun i => (e.2, i)]
  | _ => []

/-- What an instruction of a function on cells does to a state. -/
structure Visited (f : Function) (id : FuncId) (seeds : SeedTable) (i : InstId) (inst : Inst)
    (s t : State) : Prop where
  tidy : Tidy f id seeds t
  exits : t.frame.exits = s.frame.exits
  memory : s.frame.memory ⊆ t.frame.memory
  visits : t.run.visits = s.run.visits
  returns : t.frame.returns = s.frame.returns ++ s.returned inst
  others : ∀ key, key ≠ touched id i inst.kind → t.bounds.get? key = s.bounds.get? key
  touched : t.bounds.get? (touched id i inst.kind) = s.after id i inst

variable {f : Function} {id : FuncId} {seeds : SeedTable} {s : State} {ctx : Context} {descend : Descent}
  {i : InstId} {inst : Inst}

/-- Whether an instruction records something under another key than its own. -/
def recordsElsewhere : InstKind → Bool
  | .store .. | .call .. => true
  | _ => false

theorem touched_own {k : InstKind} (h : recordsElsewhere k = false) : touched id i k = .inst id i := by
  cases k with
  | store | call => cases h
  | _ => rfl

theorem after_own (h : recordsElsewhere inst.kind = false) :
    s.after id i inst = (s.result? inst).or (s.bounds.get? (.inst id i)) := by
  rw [← touched_own h]
  unfold after
  cases hk : inst.kind with
  | store | call => simp [recordsElsewhere, hk] at h
  | _ => rfl

section Tidy

variable (hf : f.isDirectMemory = true) (hs : Tidy f id seeds s)

include hs

/-- An instruction whose only effect is its result, or a value returned. -/
theorem visited_of_result (hi : f.inst? i = some inst)
    (hown : recordsElsewhere inst.kind = false) {t : State}
    (htransfer : s.transfer ctx descend i inst = (t, s.result? inst)) (hbounds : t.bounds = s.bounds)
    (hframe : t.frame = { s.frame with returns := s.frame.returns ++ s.returned inst })
    (hvisits : t.run.visits = s.run.visits)
    (hcell : ∀ bits, f.cellBits? (.inst i) = some bits → s.result? inst = none) :
    Visited f id seeds i inst s (s.step ctx descend i) := by
  have htouched : touched id i inst.kind = .inst id i := touched_own hown
  have hafter : s.after id i inst = (s.result? inst).or (s.bounds.get? (.inst id i)) := after_own hown
  obtain ⟨run, frame, bounds⟩ := t
  subst hbounds hframe
  cases hr : s.result? inst with
  | none =>
    have hstep : s.step ctx descend i =
        ⟨run, { s.frame with returns := s.frame.returns ++ s.returned inst }, s.bounds⟩ := by
      unfold step
      simp only [hs.function, hi, htransfer, hr]
    rw [hstep]
    refine ⟨{ hs with }, rfl, List.Subset.refl _, hvisits, rfl, fun _ _ => rfl, ?_⟩
    rw [htouched, hafter, hr, Option.none_or]
  | some r =>
    have hstep : s.step ctx descend i = ⟨run, { s.frame with returns := s.frame.returns ++ s.returned inst },
        s.bounds.insert (.inst id i) r⟩ := by
      unfold step
      simp only [hs.function, hi, htransfer, hr, hs.frameId]
    rw [hstep]
    refine ⟨{ hs with args := ?_, cells := ?_ }, rfl, List.Subset.refl _, hvisits, rfl, ?_, ?_⟩
    · intro k j hj
      exact hs.args k j (by simpa using hj)
    · intro a bits j ha hj
      by_cases hia : i = a
      · subst hia
        rw [hcell bits ha] at hr
        cases hr
      · exact hs.cells a bits j ha (by simpa [hia] using hj)
    · intro key hkey
      rw [htouched] at hkey
      simp [Ne.symm hkey]
    · rw [htouched, hafter, hr]
      simp

variable {m : Module} {a : InstId} {bits k : Nat} {ty : Ty} {j : Bound}

/-- Two cells never overlap, so a store to one forgets nothing about the others. -/
theorem forgetOverlaps_cell (ha : f.cellBits? (.inst a) = some bits) :
    (s.forgetOverlaps m (.inst a) (.inst id a)).frame = s.frame ∧
      (s.forgetOverlaps m (.inst a) (.inst id a)).run = s.run ∧
      (s.forgetOverlaps m (.inst a) (.inst id a)).bounds.seeds = s.bounds.seeds ∧
      ∀ key, (s.forgetOverlaps m (.inst a) (.inst id a)).bounds.get? key = s.bounds.get? key := by
  have hexact : s.isExact (some (.inst id a)) (.inst id a) = true := by simp [isExact]
  unfold forgetOverlaps
  simp only [hs.addressRoot_cell ha, hexact, hs.slot, if_true, Bool.true_and]
  refine ⟨rfl, rfl, rfl, fun key => (get?_forgetWhere s.frame m s.bounds _ key).trans (if_neg ?_)⟩
  rintro ⟨hmem, hstale⟩
  rw [hs.keyRoot_of_mem hmem, Bool.and_eq_true, bne_iff_ne] at hstale
  obtain ⟨hne, hstale⟩ := hstale
  simp [hne] at hstale

omit hs in
/-- What a store puts into a slot of undeclared range, and the state it leaves. -/
theorem storedValue_undeclared (hs : s.frame.declared = .empty) (slot : ValueKey) (v : Operand) :
    ∃ pending : Table ValueKey Nat,
      (∀ key, slot ≠ key → pending.find? key = s.frame.pendingArgs.find? key) ∧
        s.storedValue slot v = ({ s with frame := { s.frame with pendingArgs := pending } }, s.operand? v) := by
  unfold storedValue
  cases hv : s.operand? v with
  | some j => exact ⟨s.frame.pendingArgs, fun _ _ => rfl, rfl⟩
  | none =>
    cases v with
    | arg k =>
      have hdecl : s.frame.declared.find? slot = none := by rw [hs]; rfl
      simp only [storeArgument, hdecl]
      exact ⟨s.frame.pendingArgs.insert slot k, fun key hne => by simp [hne], rfl⟩
    | inst | global | const | undef => exact ⟨s.frame.pendingArgs, fun _ _ => rfl, rfl⟩

/-- A store to a cell changes the interval of that cell and nothing else. -/
theorem store_cell
    (ha : f.cellBits? (.inst a) = some bits) (v : Operand) (ty : Ty) :
    ∃ (pending : Table ValueKey Nat) (bounds : Bounds),
      s.store m v ty (.inst a) = ⟨s.run, { s.frame with
        memory := (s.frame.addMemory (.inst id a)).memory, pendingArgs := pending }, bounds⟩ ∧
      (∀ key, .inst id a ≠ key → pending.find? key = s.frame.pendingArgs.find? key) ∧
      bounds.seeds = s.bounds.seeds ∧
      ∀ key, bounds.get? key = if .inst id a = key then s.operand? v else s.bounds.get? key := by
  have hkey : s.frame.key? (.inst a) = some (.inst id a) := by
    rw [key?, hs.frameId]
    rfl
  obtain ⟨hframe, hrun, hseeds, hget⟩ := forgetOverlaps_cell (m := m) hs ha
  unfold store
  simp only [hkey]
  generalize s.forgetOverlaps m (.inst a) (.inst id a) = s₁ at hframe hrun hseeds hget ⊢
  rw [addMemory_eq, hframe, hs.slot, hrun]
  obtain ⟨pending, hpending, hstored⟩ := storedValue_undeclared (s := { s₁ with
    frame := { s.frame with memory := (s.frame.addMemory (.inst id a)).memory } }) hs.declared (.inst id a) v
  have hop := operand?_congr (s := s) (t := { s₁ with
    frame := { s.frame with memory := (s.frame.addMemory (.inst id a)).memory } }) rfl hget v
  simp only [hrun] at hstored hop
  simp only [hstored, hop]
  refine ⟨pending, s₁.bounds.set (.inst id a) (s.operand? v), ?_, hpending, hseeds, ?_⟩
  · simp only [withAliases, hs.aliases]
    rfl
  · intro key
    rw [Bounds.get?_set, hget]

/-- A binding of an argument enters the declared range. -/
theorem bindVariable_arg (hty : ty.isPointer = false) (k : Nat)
    (dbg : Option DebugBinding) :
    s.bindVariable dbg [(ty, .arg k)] =
      match dbg.bind fun d => s.bounds.seed? d.ty.baseName with
      | some j => { s with bounds := s.bounds.insert (.arg id k) j }
      | none => s := by
  have hkey : s.frame.key? (.arg k) = some (.arg id k) := by
    rw [key?, hs.frameId]
    rfl
  have hslot := hs.slot (.arg id k)
  have hpending := hs.pendingArgs k
  have haliases := hs.aliases
  obtain ⟨run, ⟨fid, function, predecessors, aliases, pendingArgs, returns, memory, declared, exits⟩, bounds⟩ := s
  simp only at haliases hpending hslot
  subst haliases
  unfold bindVariable
  cases dbg with
  | none => rfl
  | some d =>
    cases hd : bounds.seed? d.ty.baseName with
    | none => simp only [hkey, hd, Option.bind_some]
    | some j =>
      simp only [hkey, hd, hslot, hty, hpending, Option.bind_some, Bool.false_eq_true, if_false]
      rfl

variable {callee : String} {b : BlockId} {mem : MemoryState} {l : List Action}

omit hs in
theorem mem_bindings (hi : f.inst? i = some inst)
    (hmem : i ∈ f.layout) (hk : inst.kind = .call callee [(ty, .arg k)])
    (hj : (inst.dbg.bind fun d => seeds.find? d.ty.baseName) = some j) : j ∈ f.bindings seeds k := by
  obtain ⟨d, hd, hj⟩ := Option.bind_eq_some_iff.mp hj
  unfold Function.bindings
  refine List.mem_filterMap.mpr ⟨i, hmem, ?_⟩
  simp [hi, hk, hd, hj]

/-- A store to a cell. -/
theorem visited_store (hi : f.inst? i = some inst) {v : Operand}
    {ptrTy : Ty} {align : Option Nat} (hk : inst.kind = .store v ty (.inst a) ptrTy align)
    (ha : f.cellBits? (.inst a) = some bits) : Visited f id seeds i inst s (s.step ctx descend i) := by
  obtain ⟨pending, bounds, hstore, hpending, hseeds, hget⟩ := store_cell (m := ctx.module) hs ha v ty
  have hstep : s.step ctx descend i = s.store ctx.module v ty (.inst a) := by
    unfold step
    simp only [hs.function, hi, transfer, hk]
  rw [hstep, hstore]
  have htouched : State.touched id i inst.kind = .inst id a := by simp only [State.touched, hk]
  refine ⟨?_, rfl, fun key hkey => mem_addMemory.mpr (Or.inr hkey), rfl, by simp [returned, hk], ?_, ?_⟩
  · refine { hs with
      pendingArgs := ?_, memory := ?_, sameSeeds := hseeds.trans hs.sameSeeds, args := ?_, cells := ?_, exits := ?_ }
    · intro k
      rw [hpending _ (by simp)]
      exact hs.pendingArgs k
    · intro key hkey
      rcases mem_addMemory.mp hkey with rfl | hkey
      · exact Or.inl ⟨a, bits, rfl, ha⟩
      · exact hs.memory key hkey
    · intro k j hj
      rw [hget, if_neg (by simp)] at hj
      exact hs.args k j hj
    · intro a' bits' j ha' hj
      refine mem_addMemory.mpr ?_
      by_cases haa : a' = a
      · exact Or.inl (by rw [haa])
      · rw [hget, if_neg (by simpa using Ne.symm haa)] at hj
        exact Or.inr (hs.cells a' bits' j ha' hj)
    · intro b e he key j hj
      rcases hs.exits b e he key j hj with hg | ⟨a', bits', rfl, ha', hin⟩
      · exact Or.inl hg
      · exact Or.inr ⟨a', bits', rfl, ha', mem_addMemory.mpr (Or.inr hin)⟩
  · intro key hne
    rw [hget, if_neg (htouched ▸ Ne.symm hne)]
  · rw [htouched, hget, if_pos rfl]
    simp only [after, hk]

/-- A binding of an argument to a declared range. -/
theorem visited_bind (hmem : i ∈ f.layout) (hi : f.inst? i = some inst)
    (hk : inst.kind = .call callee [(ty, .arg k)])
    (hname : Scope.isDebugName callee = true) (hty : ty.isPointer = false) :
    Visited f id seeds i inst s (s.step ctx descend i) := by
  have hcall : s.transfer ctx descend i inst = (s.bindVariable inst.dbg [(ty, .arg k)], none) := by
    simp only [transfer, hk, call, hname, if_true]
  have hstep : s.step ctx descend i = s.bindVariable inst.dbg [(ty, .arg k)] := by
    unfold step
    simp only [hs.function, hi, hcall]
  have htouched : State.touched id i inst.kind = .arg id k := by simp only [State.touched, hk]
  have hresult : s.result? inst = inst.dbg.bind fun d => s.bounds.seed? d.ty.baseName := by
    simp only [result?, hk]
  have hafter : s.after id i inst = (s.result? inst).or (s.bounds.get? (.arg id k)) := by
    simp only [after, hk, State.touched]
  rw [hstep, bindVariable_arg hs hty, ← hresult]
  cases hr : s.result? inst with
  | none =>
    refine ⟨hs, rfl, List.Subset.refl _, rfl, by simp [returned, hk], fun _ _ => rfl, ?_⟩
    rw [htouched, hafter, hr, Option.none_or]
  | some j =>
    refine ⟨?_, rfl, List.Subset.refl _, rfl, by simp [returned, hk], ?_, ?_⟩
    · refine { hs with args := ?_, cells := ?_ }
      · intro k' j' hj
        by_cases hkk : k = k'
        · subst hkk
          rw [Bounds.get?_insert, if_pos rfl] at hj
          cases hj
          refine mem_bindings hi hmem hk ?_
          rw [← hr, hresult, ← hs.sameSeeds]
          rfl
        · exact hs.args k' j' (by simpa [hkk] using hj)
      · intro a bits' j' ha hj
        exact hs.cells a bits' j' ha (by simpa using hj)
    · intro key hne
      rw [htouched] at hne
      rw [Bounds.get?_insert, if_neg (Ne.symm hne)]
    · rw [htouched, hafter, hr]
      simp

include hf

/-- One instruction of a function on cells. -/
theorem visited_step (hmem : i ∈ f.layout)
    (hi : f.inst? i = some inst) : Visited f id seeds i inst s (s.step ctx descend i) := by
  obtain ⟨inst', hi', hadm⟩ := f.admitted_of_mem hf hmem
  obtain rfl : inst = inst' := Option.some.inj (hi.symm.trans hi')
  have hkind : f.kind? i = some inst.kind := by rw [Function.kind?, hi, Option.map_some]
  -- Only an alloca has the key of a cell.
  have hcell : (∀ ty align, inst.kind ≠ .alloca ty align) →
      ∀ bits, f.cellBits? (.inst i) = some bits → s.result? inst = none := by
    intro hne bits h
    obtain ⟨a, align, ha, hk, -⟩ := Function.cellBits?_eq_some.mp h
    cases ha
    exact absurd (Option.some.inj (hkind.symm.trans hk)) (hne _ _)
  -- An instruction that changes nothing besides its result.
  have hplain : recordsElsewhere inst.kind = false → s.returned inst = [] → (∀ ty align, inst.kind ≠ .alloca ty align) →
      ∀ t : State, s.transfer ctx descend i inst = (t, s.result? inst) → t.bounds = s.bounds → t.frame = s.frame →
        t.run.visits = s.run.visits → Visited f id seeds i inst s (s.step ctx descend i) := by
    intro hown hret hne t htransfer hbounds hframe hvisits
    exact visited_of_result hs hi hown htransfer hbounds (by rw [hret, List.append_nil, hframe]) hvisits (hcell hne)
  cases hadm with
  | alloca hk _ =>
    refine visited_of_result hs hi (by rw [hk]; rfl) (t := s) ?_ rfl ?_ rfl ?_
    · simp only [transfer, result?, hk]
    · simp only [returned, hk, List.append_nil]
    · intro bits _
      simp only [result?, hk]
  | @load a bits ptrTy align hk _ _ =>
    have hread : s.load inst.ty (.inst a) = s.operand? (.inst a) := by
      unfold load readAt
      rw [hs.operand?_inst, key?, hs.frameId, hs.aliases]
      rfl
    exact hplain (by rw [hk]; rfl) (by simp only [returned, hk]) (by simp [hk]) s
      (by simp only [transfer, result?, hk, hread]) rfl rfl rfl
  | store hk _ ha _ => exact visited_store hs hi hk ha
  | @arith op l r bits hk _ _ _ _ _ =>
    obtain ⟨h1, h2, h3, -⟩ := foldl_tell i (Transfer.binary op inst.ty s.operand? l r).remarks s
    exact hplain (by rw [hk]; rfl) (by simp only [returned, hk]) (by simp [hk]) _
      (by simp only [transfer, result?, hk, conclude]) h1 h2 h3
  | icmp hk _ _ _ _ | phi hk _ _ _ =>
    exact hplain (by rw [hk]; rfl) (by simp only [returned, hk]) (by simp [hk]) s
      (by simp only [transfer, result?, hk]) rfl rfl rfl
  | @zext v narrow wide hk _ _ _ _ _ =>
    cases hv : s.operand? v with
    | none =>
      exact hplain (by rw [hk]; rfl) (by simp only [returned, hk]) (by simp [hk]) s
        (by simp only [transfer, result?, hk, hv, Option.bind_none]) rfl rfl rfl
    | some x =>
      obtain ⟨h1, h2, h3, -⟩ := foldl_tell i (Transfer.cast .zext (.int narrow) inst.ty x).remarks s
      exact hplain (by rw [hk]; rfl) (by simp only [returned, hk]) (by simp [hk]) _
        (by simp only [transfer, result?, hk, hv, conclude, Option.bind_some]) h1 h2 h3
  | bind hk hname _ hty _ _ => exact visited_bind hs hmem hi hk hname hty
  | branch hk _ =>
    rcases hk with ⟨b, hk⟩ | ⟨c, t, e, hk⟩ | hk
    iterate 2
      exact hplain (by rw [hk]; rfl) (by simp only [returned, hk]) (by simp [hk]) s
        (by simp only [transfer, result?, hk]) rfl rfl rfl
    · refine visited_of_result hs hi (by rw [hk]; rfl) (t := s.ret none) ?_ rfl ?_ rfl (hcell (by simp [hk]))
      · simp only [transfer, result?, hk]
      · simp only [returned, hk, ret]
  | @ret ty v bits hk _ _ _ =>
    refine visited_of_result hs hi (by rw [hk]; rfl) (t := s.ret (some (ty, v))) ?_ rfl ?_ rfl
      (hcell (by simp [hk]))
    · simp only [transfer, result?, hk]
    · simp only [returned, hk, ret]

/-! ## 3. Starts of blocks -/

omit hs in
/-- Only arguments that are words are bound to ranges. -/
theorem param_of_mem_bindings (h : j ∈ f.bindings seeds k) :
    ∃ p bits, f.params[k]? = some p ∧ p.ty.intBits? = some bits := by
  unfold Function.bindings at h
  obtain ⟨i, hmem, h⟩ := List.mem_filterMap.mp h
  obtain ⟨inst, hi, hadm⟩ := f.admitted_of_mem hf hmem
  rw [hi, Option.bind_eq_bind, Option.bind_some] at h
  split at h
  · rename_i callee ty k' d hk hdbg
    rw [Option.ite_none_right_eq_some] at h
    obtain ⟨rfl, -⟩ := h
    cases hadm with
    | bind hk' _ _ _ hp hbits =>
      rw [hk] at hk'
      cases hk'
      exact ⟨_, _, hp, hbits⟩
    | branch hk' _ => simp [hk] at hk'
    | _ hk' => simp [hk] at hk'
  · cases h

theorem ofCells_snapshot (m : Module) :
    (s.frame.snapshot m s.bounds).OfCells f id s.frame.memory := by
  intro key j hj
  rw [find?_snapshot, Option.ite_none_right_eq_some] at hj
  obtain ⟨hmem, hj⟩ := hj
  rcases List.mem_append.mp hmem with hmem | hglobal
  · rcases hs.memory key hmem with ⟨a, bits, rfl, ha⟩ | ⟨k, p, rfl, hp, hptr⟩
    · exact Or.inr ⟨a, bits, rfl, ha, hmem⟩
    · obtain ⟨p', bits, hp', hbits⟩ := param_of_mem_bindings hf (hs.args k j hj)
      obtain rfl : p = p' := Option.some.inj (hp.symm.trans hp')
      rw [Function.intBits?_of_isPointer hptr] at hbits
      cases hbits
  · obtain ⟨h, -⟩ := List.mem_filter.mp hglobal
    obtain ⟨g, -, rfl⟩ := List.mem_map.mp h
    exact Or.inl rfl

omit hf hs in
/-- Only the first block has no entry state, if nothing leads back to it. -/
theorem of_entryState_none (h : s.entryState m b = none) :
    (s.frame.predecessors[b]?.getD []).filter (fun p => !s.frame.exits.contains p) = [] ∧ b = 0 := by
  unfold entryState at h
  simp only at h
  split at h
  · next hfirst =>
    simp only [Bool.and_eq_true, List.isEmpty_iff, decide_eq_true_eq] at hfirst
    exact ⟨hfirst.1.2, hfirst.2⟩
  · split at h
    · cases h
    · split at h <;> cases h

omit hf hs in
/-- What is known at the start of a block is known at the ends that are joined there, or where
nothing is joined in the state that the block starts from, and no loop changes it. -/
theorem of_entryState_some (h : s.entryState m b = some mem) {key : ValueKey} (hj : mem.slots.find? key = some j) :
    let preds := s.frame.predecessors[b]?.getD []
    let latches := preds.filter fun p => !s.frame.exits.contains p
    ((MemoryState.joinAll (preds.filterMap s.frame.exits.find?)).getD
      (if b = 0 then s.frame.snapshot m s.bounds else .unknown)).slots.find? key = some j ∧
    (latches ≠ [] → ∃ e, (s.frame.loopEffects m b latches).join = some e ∧
      ∃ r, s.frame.keyRoot key = some r ∧ e.hits m r = false) := by
  intro preds latches
  unfold entryState at h
  simp only at h
  generalize MemoryState.joinAll _ = joined at h ⊢
  split at h
  · cases h
  split at h
  · next hempty =>
    cases h
    exact ⟨by cases joined <;> exact hj, fun hne => absurd (List.isEmpty_iff.mp hempty) hne⟩
  split at h
  · next e he =>
    cases h
    obtain ⟨-, hj, hkeeps⟩ := find?_havoc hj
    exact ⟨by cases joined <;> exact hj, fun _ => ⟨e, he, hkeeps⟩⟩
  · cases h
    cases hj

theorem ofCells_entryState (h : s.entryState m b = some mem) : mem.OfCells f id s.frame.memory := by
  intro key i hi
  obtain ⟨hi, -⟩ := of_entryState_some h hi
  cases hjoined : MemoryState.joinAll ((s.frame.predecessors[b]?.getD []).filterMap s.frame.exits.find?) with
  | some j =>
    rw [hjoined] at hi
    obtain ⟨e, he⟩ := MemoryState.mem_of_joinAll hjoined
    obtain ⟨i', hi', -⟩ := MemoryState.find?_joinAll hjoined hi he
    obtain ⟨p, -, hp⟩ := List.mem_filterMap.mp he
    exact hs.exits p e hp key i' hi'
  | none =>
    rw [hjoined, Option.getD_none] at hi
    split_ifs at hi
    · exact ofCells_snapshot hf hs m key i hi
    · cases hi

omit hf in
/-- Putting back a memory state changes cells and globals only. -/
theorem tidy_restore (m : Module)
    (hmem : mem.OfCells f id s.frame.memory) : Tidy f id seeds (s.restore m mem) := by
  refine { hs with aliases := ?_, sameSeeds := ?_, args := ?_, cells := ?_ }
  · change s.frame.aliases.restoreUnions mem.unions = .empty
    rw [hs.aliases]
    rfl
  · exact (Bounds.foldl_set_seeds _ _ s.bounds).trans hs.sameSeeds
  · intro k j hj
    have hget := get?_restoreSlots s.frame m s.bounds mem (.arg id k)
    by_cases hin : .arg id k ∈ s.frame.memoryKeys m
    · rw [if_pos hin] at hget
      rcases hmem _ j (hget.symm.trans hj) with h | ⟨a, bits, h, -⟩ <;> cases h
    · rw [if_neg hin] at hget
      exact hs.args k j (hget.symm.trans hj)
  · intro a bits j ha hj
    have hget := get?_restoreSlots s.frame m s.bounds mem (.inst id a)
    by_cases hin : .inst id a ∈ s.frame.memoryKeys m
    · exact (Tidy.mem_memoryKeys rfl).mp hin
    · rw [if_neg hin] at hget
      exact hs.cells a bits j ha (hget.symm.trans hj)

omit hf in
theorem get?_restore_of_not_slot (m : Module) (mem : MemoryState) {j : InstId}
    (hj : ∀ bits, f.cellBits? (.inst j) ≠ some bits) :
    (s.restore m mem).bounds.get? (.inst id j) = s.bounds.get? (.inst id j) := by
  refine (get?_restoreSlots s.frame m s.bounds mem (.inst id j)).trans (if_neg ?_)
  intro hin
  rcases hs.memory _ ((Tidy.mem_memoryKeys rfl).mp hin) with ⟨a, bits, h, ha⟩ | ⟨k, p, h, -⟩
  · cases h
    exact hj bits ha
  · cases h

theorem tidy_enterBlock (m : Module) (b : BlockId) :
    Tidy f id seeds (s.enterBlock m b) := by
  unfold enterBlock
  cases h : s.entryState m b with
  | none => exact hs
  | some mem => exact tidy_restore hs m (ofCells_entryState hf hs h)

omit hf in
theorem get?_enterBlock_of_not_slot (m : Module) (b : BlockId) {j : InstId}
    (hj : ∀ bits, f.cellBits? (.inst j) ≠ some bits) :
    (s.enterBlock m b).bounds.get? (.inst id j) = s.bounds.get? (.inst id j) := by
  unfold enterBlock
  cases s.entryState m b with
  | none => rfl
  | some mem => exact get?_restore_of_not_slot hs m mem hj

omit hf in
/-- What is known about a cell at the start of a block is known in its entry state, or
nothing was changed there. -/
theorem get?_enterBlock_cell (ha : f.cellBits? (.inst a) = some bits)
    (hj : (s.enterBlock m b).bounds.get? (.inst id a) = some j) :
    (s.entryState m b = none ∧ s.bounds.get? (.inst id a) = some j) ∨
      ∃ mem, s.entryState m b = some mem ∧ mem.slots.find? (.inst id a) = some j := by
  unfold enterBlock at hj
  cases h : s.entryState m b with
  | none =>
    rw [h] at hj
    exact Or.inl ⟨rfl, hj⟩
  | some mem =>
    rw [h] at hj
    replace hj := (get?_restoreSlots s.frame m s.bounds mem (.inst id a)).symm.trans hj
    refine Or.inr ⟨mem, rfl, ?_⟩
    by_cases hin : .inst id a ∈ s.frame.memoryKeys m
    · rwa [if_pos hin] at hj
    · rw [if_neg hin] at hj
      exact absurd ((Tidy.mem_memoryKeys rfl).mpr (hs.cells a bits j ha hj)) hin

omit hf hs in
theorem frame_enterBlock (s : State) (m : Module) (b : BlockId) :
    (s.enterBlock m b).frame.exits = s.frame.exits ∧ (s.enterBlock m b).frame.memory = s.frame.memory ∧
      (s.enterBlock m b).frame.returns = s.frame.returns := by
  unfold enterBlock
  cases s.entryState m b <;> exact ⟨rfl, rfl, rfl⟩

/-! ## 4. The whole script -/

/-- An instruction is looked at as part of the script: the count of visits goes up by
one, and nothing else of the run matters. -/
theorem visited_perform (ctx : Context) (descend : Descent) (hmem : i ∈ f.layout) (hi : f.inst? i = some inst) :
    Visited f id seeds i inst (s.spend ctx) (s.perform ctx descend (.visit i)) :=
  visited_step hf (hs.withRun _) hmem hi

theorem tidy_perform {a : Action}
    (ha : ∀ i, a = .visit i → i ∈ f.layout) : Tidy f id seeds (s.perform ctx descend a) := by
  cases a with
  | enter b => exact tidy_enterBlock hf hs ctx.module b
  | visit i =>
    obtain ⟨inst, hi, -⟩ := f.admitted_of_mem hf (ha i rfl)
    exact (visited_perform hf hs ctx descend (ha i rfl) hi).tidy
  | close b =>
    refine { hs with exits := fun p e he => ?_ }
    change (s.frame.exits.insert b (s.frame.snapshot ctx.module s.bounds)).find? p = some e at he
    rw [Table.find?_insert] at he
    split_ifs at he
    · cases he
      exact ofCells_snapshot hf hs ctx.module
    · exact hs.exits p e he

omit hs in
theorem countsOne : CountsOne ctx descend (Tidy f id seeds) f.layout where
  keeps _ hs _ ha := tidy_perform hf hs ha
  visits s hs i hi := by
    obtain ⟨inst, hinst, -⟩ := f.admitted_of_mem hf hi
    exact (visited_perform hf hs ctx descend hi hinst).visits.trans (tick_same _ _ _).2.2

theorem tidy_performAll
    (hl : ∀ i, .visit i ∈ l → i ∈ f.layout) : Tidy f id seeds (performAll ctx descend l s) :=
  performAll_induction (P := Tidy f id seeds)
    (fun _ ht _ ha => tidy_perform hf ht fun i hi => hl i (hi ▸ ha)) hs

/-- What is known about a value that is no cell changes only where its instruction is
looked at. -/
theorem get?_performAll_of_unvisited
    (hl : ∀ i, .visit i ∈ l → i ∈ f.layout) {j : InstId} (hj : ∀ bits, f.cellBits? (.inst j) ≠ some bits)
    (hnot : .visit j ∉ l) :
    (performAll ctx descend l s).bounds.get? (.inst id j) = s.bounds.get? (.inst id j) := by
  refine (performAll_induction (P := fun t => Tidy f id seeds t ∧
    t.bounds.get? (.inst id j) = s.bounds.get? (.inst id j)) ?_ ⟨hs, rfl⟩).2
  rintro t ⟨ht, hget⟩ a ha
  refine ⟨tidy_perform hf ht fun i hi => hl i (hi ▸ ha), ?_⟩
  cases a with
  | enter b => exact (get?_enterBlock_of_not_slot ht ctx.module b hj).trans hget
  | close b => exact hget
  | visit i =>
    obtain ⟨inst, hi, hadm⟩ := f.admitted_of_mem hf (hl i ha)
    refine ((visited_perform hf ht ctx descend (hl i ha) hi).others _ ?_).trans hget
    have hij : j ≠ i := fun h => hnot (h ▸ ha)
    cases hadm with
    | @store _ c bits _ _ _ hk _ hcell _ =>
      have hjc : j ≠ c := fun h => hj bits (h ▸ hcell)
      simpa [State.touched, hk] using hjc
    | bind hk _ _ _ _ _ => simp [State.touched, hk]
    | branch hk _ => rcases hk with ⟨_, hk⟩ | ⟨_, _, _, hk⟩ | hk <;> simpa [State.touched, hk] using hij
    | _ hk => simpa [State.touched, hk] using hij

end Tidy

/-- The state in which the analysis of a function begins: nothing is known about its
instructions. -/
structure Begins (f : Function) (id : FuncId) (seeds : SeedTable) (s : State) : Prop where
  tidy : Tidy f id seeds s
  exits : s.frame.exits = .empty
  fresh : ∀ j, s.bounds.get? (.inst id j) = none

section Points

variable {l r : List Action} {b : BlockId} {block : Block} {done rest : List InstId}

theorem mem_layout_of_prefix (hscript : f.script = l ++ r) (hi : .visit i ∈ l) : i ∈ f.layout :=
  f.mem_layout_of_visit (hscript ▸ List.mem_append_left r hi)

theorem tidy_at (hf : f.isDirectMemory = true) (hs : Begins f id seeds s) (hscript : f.script = l ++ r) :
    Tidy f id seeds (performAll ctx descend l s) :=
  tidy_performAll hf hs.tidy fun _ hi => mem_layout_of_prefix hscript hi

theorem mem_layout_at (hscript : f.script = l ++ .visit i :: r) : i ∈ f.layout :=
  f.mem_layout_of_visit (by rw [hscript]; simp)

/-- What an instruction does where it stands in the script. -/
theorem visited_at (hf : f.isDirectMemory = true) (hs : Begins f id seeds s) (hscript : f.script = l ++ .visit i :: r)
    (hi : f.inst? i = some inst) (ctx : Context) (descend : Descent) :
    let t := performAll ctx descend l s
    Visited f id seeds i inst (t.spend ctx) (t.perform ctx descend (.visit i)) :=
  visited_perform hf (tidy_at hf hs hscript) ctx descend (mem_layout_at hscript) hi

/-- What is known about a result at some point of the script is known at its end. -/
theorem get?_script_of_beginning (hf : f.isDirectMemory = true) (hs : Begins f id seeds s) (hscript : f.script = l ++ r)
    {j : InstId} (hj : ∀ bits, f.cellBits? (.inst j) ≠ some bits) {k : Bound}
    (hk : (performAll ctx descend l s).bounds.get? (.inst id j) = some k) :
    (performAll ctx descend f.script s).bounds.get? (.inst id j) = some k := by
  by_cases hmem : .visit j ∈ l
  · have hr := f.visit_notMem_of_nodup (f.nodup_layout hf) hscript hmem
    rw [hscript, performAll_append, get?_performAll_of_unvisited hf (tidy_at hf hs hscript) ?_ hj hr]
    · exact hk
    · exact fun i hi => f.mem_layout_of_visit (hscript ▸ List.mem_append_right l hi)
  · rw [get?_performAll_of_unvisited hf hs.tidy (fun i hi => mem_layout_of_prefix hscript hi) hj hmem,
      hs.fresh] at hk
    cases hk

/-- What is recorded for a result is what its instruction finds out where it stands. -/
theorem get?_script_result (hf : f.isDirectMemory = true) (hs : Begins f id seeds s)
    (hscript : f.script = l ++ .visit i :: r) (hi : f.inst? i = some inst)
    (hown : recordsElsewhere inst.kind = false) (hcell : ∀ bits, f.cellBits? (.inst i) ≠ some bits) :
    (performAll ctx descend f.script s).bounds.get? (.inst id i) =
      (performAll ctx descend l s).result? inst := by
  have hsplit : f.script = (l ++ [.visit i]) ++ r := by rw [hscript]; simp
  have hl : .visit i ∉ l := by
    intro h
    exact f.visit_notMem_of_nodup (f.nodup_layout hf) hscript h List.mem_cons_self
  have hr := f.visit_notMem_of_nodup (f.nodup_layout hf) hsplit (i := i) (by simp)
  have hv := visited_at hf hs hscript hi ctx descend
  have hbefore : (performAll ctx descend l s).bounds.get? (.inst id i) = none := by
    rw [get?_performAll_of_unvisited hf hs.tidy (fun i hi => mem_layout_of_prefix hscript hi) hcell hl]
    exact hs.fresh i
  have htouched := hv.touched
  rw [touched_own hown, after_own hown] at htouched
  rw [hscript, performAll_append, performAll_cons,
    get?_performAll_of_unvisited hf hv.tidy (fun j hj => f.mem_layout_of_visit (hsplit ▸ List.mem_append_right _ hj))
      hcell hr, htouched]
  exact (congrArg _ hbefore).trans (Option.or_none)

theorem returns_subset (hf : f.isDirectMemory = true) (hs : Tidy f id seeds s)
    (hl : ∀ i, .visit i ∈ l → i ∈ f.layout) :
    s.frame.returns ⊆ (performAll ctx descend l s).frame.returns := by
  refine (performAll_induction (P := fun t => Tidy f id seeds t ∧ s.frame.returns ⊆ t.frame.returns) ?_
    ⟨hs, List.Subset.refl _⟩).2
  rintro t ⟨ht, hsub⟩ a ha
  refine ⟨tidy_perform hf ht fun i hi => hl i (hi ▸ ha), ?_⟩
  cases a with
  | enter b =>
    change _ ⊆ (t.enterBlock ctx.module b).frame.returns
    rw [(frame_enterBlock t ctx.module b).2.2]
    exact hsub
  | close b => exact hsub
  | visit i =>
    obtain ⟨inst, hi, -⟩ := f.admitted_of_mem hf (hl i ha)
    rw [(visited_perform hf ht ctx descend (hl i ha) hi).returns]
    exact fun x hx => List.mem_append_left _ (hsub hx)

/-- A return is among the values returned, with what is known where it stands. -/
theorem returned_subset (hf : f.isDirectMemory = true) (hs : Begins f id seeds s)
    (hscript : f.script = l ++ .visit i :: r) (hi : f.inst? i = some inst) :
    (performAll ctx descend l s).returned inst ⊆ (performAll ctx descend f.script s).frame.returns := by
  have hv := visited_at hf hs hscript hi ctx descend
  rw [hscript, performAll_append, performAll_cons]
  refine fun x hx => returns_subset hf hv.tidy (fun j hj => f.mem_layout_of_visit ?_) ?_
  · rw [hscript]
    exact List.mem_append_right _ (List.mem_cons_of_mem _ hj)
  · rw [hv.returns]
    exact List.mem_append_right _ hx

end Points

end State

end RangedIR
