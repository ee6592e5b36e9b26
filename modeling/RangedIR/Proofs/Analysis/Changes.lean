/-
RangedIR.Proofs.Analysis.Changes — the ways in which an instruction changes a state.

An instruction forgets memory, writes unions, takes keys up as memory, makes something known,
enters addresses, and notes or tells something. What an instruction leaves alone is read off
the changes that it makes.
-/
import RangedIR.Proofs.Analysis.Script
import RangedIR.Proofs.Analysis.Memory

namespace RangedIR

open Relation

/-! ## 1. Frames -/

/-- A write changes no address. -/
theorem AliasTable.recordWrite_eq (t : AliasTable) (addr : ValueKey) (kind : Option ScalarKind) (value : Option Bound) :
    t.recordWrite addr kind value = { t with unions := (t.recordWrite addr kind value).unions } := by
  unfold recordWrite
  dsimp only
  split_ifs <;> rfl

/-- A write changes what a union holds, and makes none. -/
theorem AliasTable.keys_recordWrite (t : AliasTable) (addr : ValueKey) (kind : Option ScalarKind)
    (value : Option Bound) : (t.recordWrite addr kind value).unions.keys = t.unions.keys := by
  unfold recordWrite
  dsimp only
  split_ifs with hunion
  · exact Table.keys_insert hunion _
  · rfl

/-- The part of a frame that only returns and ends of blocks change. -/
structure Frame.Body where
  id : FuncId
  function : Function
  predecessors : List (List BlockId)
  returns : List (Option (Operand × Bound))
  exits : Table BlockId MemoryState

/-- The body of a frame, and the part of it that only views and parts change. -/
structure Frame.Record where
  body : Frame.Body
  places : Table ValueKey Place
  slots : Table Place ValueKey
  unionRoots : List ValueKey

namespace Frame

def body (f : Frame) : Frame.Body := ⟨f.id, f.function, f.predecessors, f.returns, f.exits⟩

def record (f : Frame) : Frame.Record := ⟨f.body, f.aliases.places, f.aliases.slots, f.aliases.unions.keys⟩

/-- A key of a function is no memory key unless the frame says so. -/
theorem notMem_memoryKeys {f : Frame} {m : Module} {key : ValueKey} (hlocal : key.isGlobal = false)
    (hkey : key ∉ f.memory) : key ∉ f.memoryKeys m := by
  intro hmem
  rcases List.mem_append.mp hmem with hmem | hmem
  · exact hkey hmem
  · obtain ⟨g, -, rfl⟩ := List.mem_map.mp (List.mem_of_mem_filter hmem)
    cases hlocal

end Frame

/-! ## 2. Changes -/

/-- What may be changed: the keys that may become memory and those under which something may
become known, and whether addresses are entered, declarations noted, values returned, remarks
told and calls followed. -/
structure State.Licence where
  memory : ValueKey → Prop
  known : ValueKey → Prop
  places : Prop
  notes : Prop
  returns : Prop
  tells : Prop
  calls : Prop

/-- Everything may be changed. -/
def State.Licence.all : Licence := ⟨fun _ => True, fun _ => True, True, True, True, True, True⟩

/-- No more may be changed than what is forgotten and what unions hold. -/
def State.Licence.none : Licence := ⟨fun _ => False, fun _ => False, False, False, False, False, False⟩

/-- Everything but the record of the frame may be changed. -/
def State.Licence.still : Licence := { all with places := False, returns := False }

/-- A function may keep values under the key, and note what they say about its arguments. -/
structure State.Licence.Admits (p : Licence) (id : FuncId) (key : ValueKey) : Prop where
  notes : p.notes
  args : ∀ j, p.known (.arg id j)
  known : p.known key
  memory : p.memory key

/-- One change. -/
inductive State.Change (p : Licence) : State → State → Prop
  | forget (s : State) (m : Module) (stale : ValueKey → Option ValueKey → Bool) : Change p s (s.forgetWhere m stale)
  | unions (s : State) {u : Table ValueKey UnionState} (h : u.keys = s.frame.aliases.unions.keys) :
      Change p s (s.withAliases ({ · with unions := u }))
  | memory (s : State) {key : ValueKey} (h : p.memory key) : Change p s { s with frame := s.frame.addMemory key }
  | known (s : State) {key : ValueKey} (h : p.known key) (i : Option Bound) :
      Change p s { s with bounds := s.bounds.set key i }
  | view (s : State) (key : ValueKey) {target : ValueKey} (h : p.places)
      (htarget : p.memory (s.frame.aliases.locate target).1) : Change p s (s.withAliases (·.registerView key target))
  | part (s : State) {key : ValueKey} (base : ValueKey) (bits : Nat) (h : p.places) (hkey : p.memory key)
      (hbase : p.memory (s.frame.aliases.locate base).1) : Change p s (s.withAliases (·.registerField key base bits))
  | notes (s : State) (h : p.notes) (declared : Table ValueKey Bound) (pending : Table ValueKey Nat) :
      Change p s { s with frame := { s.frame with declared := declared, pendingArgs := pending } }
  | returns (s : State) (h : p.returns) (values : List (Option (Operand × Bound))) :
      Change p s { s with frame := { s.frame with returns := values } }
  | tells (s : State) (h : p.tells) (i : InstId) (r : Remark) : Change p s (s.tell i r)
  | calls (s : State) (h : p.calls) (run : Run) (bounds : Bounds) : Change p s { s with run := run, bounds := bounds }

/-- One change after the other. -/
abbrev State.Changes (p : Licence) : State → State → Prop := ReflTransGen (Change p)

namespace State

variable {p : Licence} {s t : State}

/-- What no change touches is the same in the end. -/
theorem Changes.same {α : Type} (g : State → α) (hg : ∀ {s t}, Change p s t → g t = g s) (h : Changes p s t) :
    g t = g s := by
  induction h with
  | refl => rfl
  | tail _ hstep ih => exact (hg hstep).trans ih

theorem Changes.record (h : Changes p s t) (hplaces : ¬ p.places) (hreturns : ¬ p.returns) :
    t.frame.record = s.frame.record := by
  refine h.same (·.frame.record) fun hstep => ?_
  cases hstep with
  | unions hu => simp [Frame.record, Frame.body, withAliases, hu]
  | memory _ => rw [Frame.addMemory_eq]; rfl
  | view _ h _ | part _ _ h _ _ => exact absurd h hplaces
  | returns h _ => exact absurd h hreturns
  | _ => rfl

theorem Changes.body (h : Changes p s t) (hreturns : ¬ p.returns) : t.frame.body = s.frame.body := by
  refine h.same (·.frame.body) fun hstep => ?_
  cases hstep with
  | memory _ => rw [Frame.addMemory_eq]; rfl
  | returns h _ => exact absurd h hreturns
  | _ => rfl

theorem Changes.function (h : Changes p s t) : t.frame.id = s.frame.id ∧ t.frame.function = s.frame.function := by
  refine Prod.mk.inj (h.same (fun s => (s.frame.id, s.frame.function)) fun hstep => ?_)
  cases hstep with
  | memory _ => rw [Frame.addMemory_eq]
  | _ => rfl

theorem Changes.notes (h : Changes p s t) (hnotes : ¬ p.notes) :
    t.frame.pendingArgs = s.frame.pendingArgs ∧ t.frame.declared = s.frame.declared := by
  refine Prod.mk.inj (h.same (fun s => (s.frame.pendingArgs, s.frame.declared)) fun hstep => ?_)
  cases hstep with
  | memory _ => rw [Frame.addMemory_eq]
  | notes h _ _ => exact absurd h hnotes
  | _ => rfl

theorem Changes.run (h : Changes p s t) (htells : ¬ p.tells) (hcalls : ¬ p.calls) : t.run = s.run := by
  refine h.same State.run fun hstep => ?_
  cases hstep with
  | tells h _ _ => exact absurd h htells
  | calls h _ _ => exact absurd h hcalls
  | _ => rfl

theorem Changes.stack (h : Changes p s t) (hcalls : ¬ p.calls) :
    t.run.stack = s.run.stack ∧ t.run.memo = s.run.memo := by
  refine Prod.mk.inj (h.same (fun s => (s.run.stack, s.run.memo)) fun hstep => ?_)
  cases hstep with
  | calls h _ _ => exact absurd h hcalls
  | _ => rfl

theorem Changes.memory (h : Changes p s t) : s.frame.memory ⊆ t.frame.memory := by
  induction h with
  | refl => exact List.Subset.refl _
  | tail _ hstep ih =>
    refine List.Subset.trans ih ?_
    cases hstep with
    | memory _ => exact fun _ hk => Frame.mem_addMemory.mpr (Or.inr hk)
    | _ => exact List.Subset.refl _

/-- What is known under a key stays, unless it is forgotten as memory. -/
theorem Changes.get? (h : Changes p s t) (hcalls : ¬ p.calls) {key : ValueKey} (hkey : ¬ p.known key) :
    t.bounds.get? key = s.bounds.get? key ∨
      t.bounds.get? key = none ∧ (key.isGlobal = true ∨ key ∈ t.frame.memory) := by
  induction h with
  | refl => exact Or.inl rfl
  | @tail t u _ hstep ih =>
    have hmemory := Changes.memory (.single hstep)
    have hstep : u.bounds.get? key = t.bounds.get? key ∨
        u.bounds.get? key = none ∧ (key.isGlobal = true ∨ key ∈ u.frame.memory) := by
      cases hstep with
      | forget m stale =>
        have hget := Frame.get?_forgetWhere t.frame m t.bounds stale key
        by_cases hmem : key.isGlobal = false ∧ key ∉ t.frame.memory
        · exact Or.inl (hget.trans (if_neg fun h => Frame.notMem_memoryKeys hmem.1 hmem.2 h.1))
        · rw [not_and_or, Bool.not_eq_false, not_not] at hmem
          by_cases hstale : key ∈ t.frame.memoryKeys m ∧ stale key (t.frame.keyRoot key) = true
          · exact Or.inr ⟨hget.trans (if_pos hstale), hmem⟩
          · exact Or.inl (hget.trans (if_neg hstale))
      | known h i =>
        refine Or.inl ((Bounds.get?_set _ _ _ _).trans (if_neg ?_))
        rintro rfl
        exact hkey h
      | calls h _ _ => exact absurd h hcalls
      | _ => exact Or.inl rfl
    rcases hstep with hsame | hlost
    · rw [hsame]
      exact ih.imp_right (And.imp_right (Or.imp_right (@hmemory key)))
    · exact Or.inr hlost

/-- States with the same record keep values under the same keys. -/
theorem slot_of_record (h : t.frame.record = s.frame.record) (addr : ValueKey) :
    t.frame.aliases.slot addr = s.frame.aliases.slot addr := by
  unfold AliasTable.slot
  rw [show t.frame.aliases.places = s.frame.aliases.places from congrArg Frame.Record.places h,
    show t.frame.aliases.slots = s.frame.aliases.slots from congrArg Frame.Record.slots h]

theorem changes_foldl {α : Type} {g : State → α → State} {l : List α} {K : State → Prop}
    (hg : ∀ s, K s → ∀ x ∈ l, K (g s x) ∧ Changes p s (g s x)) {s : State} (hs : K s) : Changes p s (l.foldl g s) := by
  refine (List.foldlRecOn (motive := fun t => K t ∧ Changes p s t) l g ⟨hs, .refl⟩ fun t ht x hx => ?_).2
  exact ⟨(hg t ht.1 x hx).1, ht.2.trans (hg t ht.1 x hx).2⟩

theorem changes_recordWrite (s : State) (addr : ValueKey) (kind : Option ScalarKind) (value : Option Bound) :
    Changes p s (s.withAliases (·.recordWrite addr kind value)) := by
  have hchange := Change.unions (p := p) s (s.frame.aliases.keys_recordWrite addr kind value)
  unfold withAliases at hchange ⊢
  dsimp only at hchange ⊢
  rw [AliasTable.recordWrite_eq]
  exact .single hchange

theorem changes_invalidate (s : State) (root : Option ValueKey) : Changes p s (s.invalidate root) := by
  cases root with
  | none => exact .single (.unions s (Table.keys_mapValues _ _))
  | some root => exact changes_recordWrite s root none none

theorem changes_conclude (s : State) (htells : p.tells) (i : InstId) (o : Outcome) :
    Changes p s (s.conclude i o).1 :=
  changes_foldl (K := fun _ => True) (fun s _ r _ => ⟨trivial, .single (.tells s htells i r)⟩) trivial

/-! ## 3. Memory -/

theorem changes_forgetOverlaps (s : State) (m : Module) (ptr : Operand) (addr : ValueKey) :
    Changes p s (s.forgetOverlaps m ptr addr) := by
  unfold forgetOverlaps
  dsimp only
  split_ifs
  · exact .single (.forget s m _)
  · exact .head (.forget s m _) (changes_invalidate _ _)

@[simp] theorem record_forgetOverlaps (s : State) (m : Module) (ptr : Operand) (addr : ValueKey) :
    (s.forgetOverlaps m ptr addr).frame.record = s.frame.record :=
  (changes_forgetOverlaps (p := .still) s m ptr addr).record id id

/-- Storing an argument may say something about it. -/
theorem changes_storedValue (s : State) (slot : ValueKey) (value : Operand) (hnotes : p.notes)
    (hargs : ∀ j, p.known (.arg s.frame.id j)) : Changes p s (s.storedValue slot value).1 := by
  unfold storedValue storeArgument
  split
  · exact .refl
  · split
    · split
      · next i _ => exact .single (.known s (hargs _) (some i))
      · exact .single (.notes s hnotes _ _)
    · exact .refl

/-- A store first forgets what it may overlap, and makes its place memory. -/
theorem changes_write (m : Module) (value : Operand) (valueTy : Ty) {ptr : Operand} {addr : ValueKey}
    (haddr : s.frame.key? ptr = some addr) (hslot : p.Admits s.frame.id (s.frame.aliases.slot addr)) :
    Changes p { s.forgetOverlaps m ptr addr with
      frame := (s.forgetOverlaps m ptr addr).frame.addMemory (s.frame.aliases.slot addr) }
      (s.store m value valueTy ptr) := by
  have hrecord := record_forgetOverlaps s m ptr addr
  have hid : (s.forgetOverlaps m ptr addr).frame.id = s.frame.id := congrArg (·.body.id) hrecord
  unfold store
  rw [haddr]
  dsimp only
  rw [slot_of_record hrecord]
  refine ((changes_storedValue _ _ value hslot.notes fun j => ?_).tail (.known _ hslot.known _)).trans
    (changes_recordWrite _ _ _ _)
  rw [Frame.addMemory_eq, hid]
  exact hslot.args j

/-- A store makes something known of its slot, and of an argument. -/
theorem changes_store (m : Module) (value : Operand) (valueTy : Ty) {ptr : Operand}
    (hptr : ∀ addr, s.frame.key? ptr = some addr → p.Admits s.frame.id (s.frame.aliases.slot addr)) :
    Changes p s (s.store m value valueTy ptr) := by
  cases haddr : s.frame.key? ptr with
  | none =>
    unfold store
    rw [haddr]
  | some addr =>
    have hslot := hptr addr haddr
    exact ((changes_forgetOverlaps s m ptr addr).tail (.memory _ hslot.memory)).trans
      (changes_write m value valueTy haddr hslot)

/-- A binding gives its operand a range, and the argument that was stored there. The place of an
address is declared to have it. -/
theorem changes_bindVariable {dbg : Option DebugBinding} {args : List (Ty × Operand)}
    (hbound : ∀ d ty op rest i addr, dbg = some d → args = (ty, op) :: rest → s.bounds.seed? d.ty.baseName = some i →
      s.frame.key? op = some addr → p.Admits s.frame.id (s.frame.aliases.slot addr)) :
    Changes p s (s.bindVariable dbg args) := by
  unfold bindVariable
  split
  next d ty op rest =>
    split
    next addr i haddr hseed =>
      have hslot := hbound d ty op rest i addr rfl rfl hseed haddr
      set slot := s.frame.aliases.slot addr
      have hdeclare : ∀ t : State, Changes p t (if ty.isPointer then
          { t with frame := { t.frame.addMemory slot with declared := (t.frame.addMemory slot).declared.insert slot i } }
          else t) := by
        intro t
        split_ifs
        · exact .head (.memory t hslot.memory) (.single (.notes _ hslot.notes _ _))
        · exact .refl
      have hdeclared := (hdeclare _).head (.known s hslot.known (some i))
      have hid := (Changes.function hdeclared).1
      refine .trans ?_ (changes_recordWrite _ _ _ _)
      split
      next index hindex =>
        exact (hdeclared.tail (.known _ (hid ▸ hslot.args index) (some i))).tail (.notes _ hslot.notes _ _)
      next => exact hdeclared
    next => exact .refl
  next => exact .refl

theorem changes_view (s : State) (htells : p.tells) (i : InstId) {value : Operand} (src dst : Ty)
    (haddress : src.isPointer = true → p.places ∧ p.memory (.inst s.frame.id i) ∧
      ∀ addr, s.frame.key? value = some addr → p.memory (s.frame.aliases.locate addr).1) :
    Changes p s (s.view i value src dst).1 := by
  unfold view
  split_ifs with hsrc
  · obtain ⟨hplaces, hself, htarget⟩ := haddress hsrc
    split
    · exact .refl
    · next target haddr => exact .tail (.single (.view s _ hplaces (htarget target haddr))) (.memory _ hself)
  · split
    · exact .refl
    · split
      · split_ifs
        · exact .refl
        · exact changes_conclude s htells i _
      · exact changes_conclude s htells i _

theorem changes_elementPtr (layout : DataLayout) {i : InstId} (ty source : Ty) {base : Operand}
    (indices : List (Ty × Operand)) (hplaces : p.places) (hself : p.memory (.inst s.frame.id i))
    (hbase : ∀ addr, s.frame.key? base = some addr → p.memory (s.frame.aliases.locate addr).1) :
    Changes p s (s.elementPtr layout i ty source base indices).1 := by
  have hadd : Change p s { s with frame := s.frame.addMemory (.inst s.frame.id i) } := .memory s hself
  unfold elementPtr
  split
  · exact .refl
  · next addr haddr =>
    split
    · exact .refl
    · dsimp only
      split
      · next bits _ =>
        have hpart := Change.part (p := p) { s with frame := s.frame.addMemory (.inst s.frame.id i) } addr bits
          hplaces hself (by rw [Frame.addMemory_eq]; exact hbase addr haddr)
        split_ifs <;> exact .head hadd (.single hpart)
      · split_ifs <;> exact .single hadd

/-! ## 4. Calls -/

theorem changes_clobber (s : State) (m : Module) (args : List (Ty × Operand)) : Changes p s (s.clobber m args) := by
  unfold clobber
  dsimp only
  split_ifs
  · exact .head (.forget s m _) (changes_invalidate _ none)
  · exact .head (.forget s m _)
      (changes_foldl (K := fun _ => True) (fun s _ root _ => ⟨trivial, changes_invalidate s root⟩) trivial)

theorem changes_callExternal (s : State) (htells : p.tells) (m : Module) (i : InstId) (callee : String)
    (args : List (Ty × Operand)) : Changes p s (s.callExternal m i callee args).1 := by
  unfold callExternal
  split
  · exact .refl
  · dsimp only
    split
    · exact changes_clobber s m args
    · exact (changes_clobber s m args).trans (changes_conclude _ htells i _)

theorem changes_forgetPointee (s : State) (m : Module) (a : PointerArg) : Changes p s (s.forgetPointee m a) :=
  .head (.forget s m _) (changes_invalidate _ a.root)

/-- Taking over the memory behind an argument makes something known of the argument. -/
theorem changes_adoptPointee (callee : FuncId) (scope : Bounds) (all : List PointerArg) {a : PointerArg}
    (hslot : a.root.isSome = true → p.known (s.frame.aliases.slot a.addr) ∧ p.memory (s.frame.aliases.slot a.addr)) :
    Changes p s (s.adoptPointee callee scope all a) := by
  unfold adoptPointee
  dsimp only
  split_ifs with hown
  · split
    · next i _ =>
      have hroot : a.root.isSome = true := by
        cases ha : a.root with
        | none => simp [ha] at hown
        | some r => rfl
      exact .head (.known s (hslot hroot).1 (some i)) (.single (.memory _ (hslot hroot).2))
    · exact .refl
  · exact .refl

/-- What a call leaves behind makes something known of the arguments that point into objects of
the caller, apart from what is merged. -/
theorem changes_applySummary (m : Module) (callee : FuncId) {args : List (Ty × Operand)} (scope : Bounds)
    (hargs : ∀ a ∈ s.pointerArgs args, a.root.isSome = true →
      p.known (s.frame.aliases.slot a.addr) ∧ p.memory (s.frame.aliases.slot a.addr)) :
    ∃ t, Changes p s t ∧ t.frame = s.frame ∧
      Changes p { t with bounds := t.bounds.mergeChild scope } (s.applySummary m callee args scope) := by
  have hforget : ∀ (q : Licence) (l : List PointerArg) (t : State),
      Changes q t (l.foldl (fun s a => s.forgetPointee m a) t) := fun q l t =>
    changes_foldl (K := fun _ => True) (fun s _ a _ => ⟨trivial, changes_forgetPointee s m a⟩) trivial
  have hpointees : ∀ t : State, t.frame = s.frame → Changes p t ((t.pointerArgs args).foldl (fun s a =>
      s.adoptPointee callee scope (t.pointerArgs args) a)
      ((t.pointerArgs args).foldl (fun s a => s.forgetPointee m a) t)) := by
    intro t ht
    have hpointers : t.pointerArgs args = s.pointerArgs args := by
      unfold pointerArgs
      rw [ht]
    rw [hpointers]
    -- the places of the arguments stay the same throughout
    refine (hforget p _ t).trans (changes_foldl (K := fun u => u.frame.record = s.frame.record) (fun u hu a ha => ?_) ?_)
    · have hadopt := changes_adoptPointee (p := .still) (s := u) callee scope (s.pointerArgs args) (a := a)
        fun _ => ⟨trivial, trivial⟩
      refine ⟨(Changes.record hadopt id id).trans hu, changes_adoptPointee callee scope _ fun hroot => ?_⟩
      rw [slot_of_record hu]
      exact hargs a ha hroot
    · rw [Changes.record (hforget .still _ t) id id, ht]
  exact ⟨_, .single (.forget s m _), rfl, hpointees _ rfl⟩

theorem changes_checkRange (s : State) (htells : p.tells) (i : InstId) (callee : Function) (result : Option Bound) :
    Changes p s (s.checkRange i callee result) := by
  unfold checkRange
  split
  · split
    · split_ifs
      · exact .refl
      · exact .single (.tells s htells i _)
    · exact .refl
  · exact .refl

theorem changes_callDefined (hcalls : p.calls) (htells : p.tells) (hall : ∀ key, p.known key ∧ p.memory key)
    (ctx : Context) (descend : Descent) (i : InstId) (callee : FuncId) (f : Function) (args : List (Ty × Operand)) :
    Changes p s (s.callDefined ctx descend i callee f args).1 := by
  unfold callDefined
  split
  · exact changes_conclude s htells i _
  · dsimp only
    set called := s.summarize ctx descend i callee (s.argBounds args)
    obtain ⟨t, hforget, -, hpointees⟩ := @changes_applySummary p { s with run := called.1 } ctx.module callee args
      called.2.scope fun a _ _ => hall _
    have hmerged := (hforget.tail (.calls t hcalls t.run (t.bounds.mergeChild called.2.scope))).trans hpointees
    exact ((hmerged.head (.calls s hcalls called.1 s.bounds)).tail (.calls _ hcalls _ _)).trans
      (changes_checkRange _ htells i f _)

/-! ## 5. Instructions -/

end State

namespace InstKind

/-- The operands that an instruction takes as addresses. A binding takes what it binds. -/
def addresses : InstKind → List Operand
  | view v src => if src.isPointer then [v] else []
  | store _ _ ptr _ _ => [ptr]
  | elementPtr _ _ base _ _ => [base]
  | call callee args =>
    if Scope.isDebugName callee then (args.take 1).map Prod.snd
    else (args.filter (·.1.isPointer)).map Prod.snd
  | _ => []

/-- Whether the result is an address that is computed from another. -/
def isAddress : InstKind → Bool
  | view _ src => src.isPointer
  | elementPtr .. => true
  | _ => false

end InstKind

namespace State

variable {p : Licence} {s : State}

/-- The instruction stores through an address whose value is kept under the key. -/
def StoresUnder (s : State) (inst : Inst) (q : ValueKey) : Prop :=
  ∃ value valueTy ptr ptrTy align addr, inst.kind = .store value valueTy ptr ptrTy align ∧
    s.frame.key? ptr = some addr ∧ s.frame.aliases.slot addr = q

/-- The instruction binds a variable of known range to an operand of a type whose value is
kept under the key. -/
def BindsUnder (s : State) (inst : Inst) (ty : Ty) (q : ValueKey) : Prop :=
  ∃ callee op rest d i addr, inst.kind = .call callee ((ty, op) :: rest) ∧ Scope.isDebugName callee = true ∧
    inst.dbg = some d ∧ s.bounds.seed? d.ty.baseName = some i ∧
    s.frame.key? op = some addr ∧ s.frame.aliases.slot addr = q

/-- The changes that an instruction may make, by its kind. -/
structure Permits (p : Licence) (s : State) (m : Module) (i : InstId) (inst : Inst) : Prop where
  tells : p.tells
  returns : ∀ v, inst.kind = .ret v → p.returns
  writes : ∀ q, (s.StoresUnder inst q ∨ ∃ ty, s.BindsUnder inst ty q) → p.Admits s.frame.id q
  address : inst.kind.isAddress = true → p.places ∧ p.memory (.inst s.frame.id i) ∧
    ∀ op ∈ inst.kind.addresses, ∀ addr, s.frame.key? op = some addr → p.memory (s.frame.aliases.locate addr).1
  calls : ∀ callee args d, inst.kind = .call callee args → Scope.isDebugName callee = false →
    m.functionNamed? callee = some d → p.calls ∧ ∀ key, p.known key ∧ p.memory key

theorem changes_transfer {ctx : Context} (descend : Descent) {i : InstId} {inst : Inst}
    (h : Permits p s ctx.module i inst) : Changes p s (s.transfer ctx descend i inst).1 := by
  obtain ⟨htells, hreturns, hwrites, haddress, hcalls⟩ := h
  unfold transfer
  cases hkind : inst.kind with
  | binary op lhs rhs => exact changes_conclude s htells i _
  | cast op v src =>
    dsimp only
    split
    · exact changes_conclude s htells i _
    · exact .refl
  | view v src =>
    simp only [hkind, InstKind.isAddress, InstKind.addresses] at haddress
    refine changes_view s htells i src inst.ty fun hsrc => ?_
    obtain ⟨hplaces, hself, htarget⟩ := haddress hsrc
    exact ⟨hplaces, hself, htarget v (by simp [hsrc])⟩
  | store value valueTy ptr ptrTy align =>
    exact changes_store ctx.module value valueTy fun addr haddr =>
      hwrites _ (.inl ⟨value, valueTy, ptr, ptrTy, align, addr, hkind, haddr, rfl⟩)
  | elementPtr inbounds source base baseTy indices =>
    simp only [hkind, InstKind.isAddress, InstKind.addresses] at haddress
    obtain ⟨hplaces, hself, hbase⟩ := haddress trivial
    exact changes_elementPtr ctx.layout inst.ty source indices hplaces hself (hbase base (List.mem_singleton_self _))
  | call callee args =>
    dsimp only
    unfold call
    split_ifs with hdebug
    · refine changes_bindVariable fun d ty op rest range addr hdbg hargs hseed haddr => hwrites _ (.inr ⟨ty, ?_⟩)
      exact ⟨callee, op, rest, d, range, addr, hargs ▸ hkind, hdebug, hdbg, hseed, haddr, rfl⟩
    · split
      · exact changes_callExternal s htells ctx.module i callee args
      · next d hd =>
        obtain ⟨hp, hall⟩ := hcalls callee args d hkind (Bool.eq_false_of_not_eq_true hdebug) hd
        split
        · exact changes_callDefined hp htells hall ctx descend i d _ args
        · exact .refl
  | ret v => exact .single (.returns s (hreturns v hkind) _)
  | fneg | alloca | load | icmp | fcmp | br | condBr | phi => exact .refl

end State
end RangedIR
