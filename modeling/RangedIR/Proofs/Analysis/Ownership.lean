/-
RangedIR.Proofs.Analysis.Ownership — which entries an instruction may change.

The entries of values and those of memory stand in one table. A frame reaches the
entries that it may write through its memory keys and through the places and slots of its
addresses; as long as these stay among the keys with a property, every other entry is left
alone.
-/
import RangedIR.Proofs.Analysis.Changes
import RangedIR.Proofs.Analysis.Merging

namespace RangedIR

/-! ## 1. Addresses and frames -/

/-- The places and slots of all addresses have keys with the property. -/
structure AliasTable.Within (Q : ValueKey → Prop) (t : AliasTable) : Prop where
  places : t.places.All fun _ place => Q place.1
  slots : t.slots.All fun _ key => Q key

/-- The memory of a frame and its addresses have keys with the property. -/
structure Frame.Within (Q : ValueKey → Prop) (f : Frame) : Prop where
  memory : ∀ key ∈ f.memory, Q key
  aliases : f.aliases.Within Q

namespace AliasTable

variable {Q : ValueKey → Prop} {t : AliasTable}

theorem within_empty : empty.Within Q := ⟨Table.all_empty, Table.all_empty⟩

theorem Within.locate (h : t.Within Q) {addr : ValueKey} (haddr : Q addr) : Q (t.locate addr).1 := by
  unfold AliasTable.locate
  cases hp : t.places.find? addr with
  | none => exact haddr
  | some place => exact h.places.find? hp

theorem Within.slot (h : t.Within Q) {addr : ValueKey} (haddr : Q addr) : Q (t.slot addr) := by
  unfold AliasTable.slot
  cases t.places.find? addr with
  | none => exact haddr
  | some place =>
    cases hs : t.slots.find? place with
    | none => simpa only [hs, Option.getD_none] using haddr
    | some key => simpa only [hs, Option.getD_some] using h.slots.find? hs

theorem Within.registerView (h : t.Within Q) (view : ValueKey) {target : ValueKey} (htarget : Q (t.locate target).1) :
    (t.registerView view target).Within Q :=
  ⟨h.places.insert htarget, h.slots⟩

theorem Within.registerField (h : t.Within Q) {field base : ValueKey} (hfield : Q field)
    (hroot : Q (t.locate base).1) (bits : Nat) : (t.registerField field base bits).Within Q := by
  refine ⟨h.places.insert hroot, ?_⟩
  change Table.All _ (if _ then t.slots else _)
  split_ifs
  · exact h.slots
  · exact h.slots.insert hroot
  · exact h.slots.insert hfield

end AliasTable

namespace Frame

variable {Q : ValueKey → Prop} {f : Frame}

theorem within_start {id : FuncId} (function : Function) (hargs : ∀ i, Q (.arg id i)) :
    (Frame.start id function).Within Q := by
  refine ⟨fun key hkey => ?_, AliasTable.within_empty⟩
  obtain ⟨⟨p, i⟩, -, hp⟩ := List.mem_filterMap.mp hkey
  dsimp only at hp
  split_ifs at hp
  cases hp
  exact hargs i

theorem Within.addMemory (h : f.Within Q) {key : ValueKey} (hkey : Q key) : (f.addMemory key).Within Q := by
  refine ⟨fun k hk => ?_, ?_⟩
  · rcases mem_addMemory.mp hk with rfl | hk
    · exact hkey
    · exact h.memory k hk
  · rw [addMemory_eq]
    exact h.aliases

@[simp] theorem addMemory_id (f : Frame) (key : ValueKey) : (f.addMemory key).id = f.id := by rw [addMemory_eq]

@[simp] theorem addMemory_function (f : Frame) (key : ValueKey) :
    (f.addMemory key).function = f.function := by rw [addMemory_eq]

end Frame

/-! ## 2. Values -/

/-- The second state is one of the same function and has the same addresses. -/
structure State.KeepsPlaces (s t : State) : Prop where
  id : t.frame.id = s.frame.id
  function : t.frame.function = s.frame.function
  places : t.frame.aliases.places = s.frame.aliases.places
  slots : t.frame.aliases.slots = s.frame.aliases.slots

/-- The second state has all the memory of the first and the same addresses, and the values
that are not memory there are known as they were. -/
structure State.KeepsValues (s t : State) : Prop extends KeepsPlaces s t where
  run : t.run = s.run
  memory : s.frame.memory ⊆ t.frame.memory
  bounds : ∀ key, key.isGlobal = false → key ∉ t.frame.memory → t.bounds.get? key = s.bounds.get? key

namespace State

variable {Q : ValueKey → Prop} {s t u : State}

/-- States with the same record have the same addresses. -/
theorem KeepsPlaces.of_record (h : t.frame.record = s.frame.record) : KeepsPlaces s t :=
  ⟨congrArg (·.body.id) h, congrArg (·.body.function) h, congrArg Frame.Record.places h, congrArg Frame.Record.slots h⟩

theorem KeepsPlaces.trans (h : KeepsPlaces s t) (h' : KeepsPlaces t u) : KeepsPlaces s u :=
  ⟨h'.id.trans h.id, h'.function.trans h.function, h'.places.trans h.places, h'.slots.trans h.slots⟩

theorem KeepsValues.refl (s : State) : KeepsValues s s :=
  ⟨.of_record rfl, rfl, List.Subset.refl _, fun _ _ _ => rfl⟩

theorem KeepsValues.trans (h : KeepsValues s t) (h' : KeepsValues t u) : KeepsValues s u where
  toKeepsPlaces := h.toKeepsPlaces.trans h'.toKeepsPlaces
  run := h'.run.trans h.run
  memory := List.Subset.trans h.memory h'.memory
  bounds key hlocal hkey :=
    (h'.bounds key hlocal hkey).trans (h.bounds key hlocal fun hmem => hkey (h'.memory hmem))

/-- Where nothing may become known, values are kept. -/
theorem Changes.keepsValues (h : Changes .none s t) : KeepsValues s t where
  toKeepsPlaces := .of_record (h.record id id)
  run := h.run id id
  memory := h.memory
  bounds key hlocal hkey := by
    refine (h.get? id id).resolve_right ?_
    rintro ⟨-, hglobal | hmem⟩
    · cases hglobal.symm.trans hlocal
    · exact hkey hmem

@[simp] theorem conclude_bounds (s : State) (i : InstId) (o : Outcome) : (s.conclude i o).1.bounds = s.bounds :=
  (foldl_tell i o.remarks s).1

@[simp] theorem conclude_frame (s : State) (i : InstId) (o : Outcome) : (s.conclude i o).1.frame = s.frame :=
  (foldl_tell i o.remarks s).2.1

theorem keepsValues_foldl {α : Type} {g : State → α → State} (hg : ∀ s x, KeepsValues s (g s x)) (l : List α)
    (s : State) : KeepsValues s (l.foldl g s) :=
  List.foldlRecOn l g (.refl s) fun t ht x _ => ht.trans (hg t x)

theorem Changes.within {p : Licence} (h : Changes p s t) (hp : ∀ key, p.memory key → Q key) (hs : s.frame.Within Q) :
    t.frame.Within Q := by
  induction h with
  | refl => exact hs
  | tail _ hstep ih =>
    cases hstep with
    | memory h => exact ih.addMemory (hp _ h)
    | view key _ h => exact ⟨ih.memory, ih.aliases.registerView key (hp _ h)⟩
    | part base bits _ hkey h => exact ⟨ih.memory, ih.aliases.registerField (hp _ hkey) (hp _ h) bits⟩
    | _ => exact ⟨ih.memory, ⟨ih.aliases.places, ih.aliases.slots⟩⟩

end State

/-- The second state's frame stays among the keys with the property, and what is known
under all other keys is as in the first, as are the functions that are being analysed and
the calls that were followed. -/
structure State.Spares (Q : ValueKey → Prop) (s t : State) : Prop where
  stack : t.run.stack = s.run.stack
  memo : t.run.memo = s.run.memo
  id : t.frame.id = s.frame.id
  function : t.frame.function = s.frame.function
  within : t.frame.Within Q
  bounds : ∀ key, ¬ Q key → t.bounds.get? key = s.bounds.get? key

namespace State

variable {Q : ValueKey → Prop} {s t u : State}

/-- Keys with the property may be changed. -/
def Licence.within (Q : ValueKey → Prop) : Licence := { Licence.all with memory := Q, known := Q, calls := False }

/-- Where all globals have the property, a frame that stays inside keeps the values outside. -/
theorem Changes.spares (h : Changes (.within Q) s t) (hglobal : ∀ g, Q (.global g)) (hs : s.frame.Within Q) :
    Spares Q s t where
  stack := (h.stack id).1
  memo := (h.stack id).2
  id := h.function.1
  function := h.function.2
  within := h.within (fun _ => id) hs
  bounds key hkey := by
    refine (h.get? id hkey).resolve_right ?_
    rintro ⟨-, hisGlobal | hmem⟩
    · cases key with
      | global g => exact hkey (hglobal g)
      | inst g i | arg g i => cases hisGlobal
    · exact hkey ((h.within (fun _ => id) hs).memory key hmem)

theorem spares_refl (h : s.frame.Within Q) : Spares Q s s := ⟨rfl, rfl, rfl, rfl, h, fun _ _ => rfl⟩

theorem spares_insert (h : s.frame.Within Q) {key : ValueKey} (hkey : Q key) (i : Bound) :
    Spares Q s { s with bounds := s.bounds.insert key i } where
  stack := rfl
  memo := rfl
  id := rfl
  function := rfl
  within := h
  bounds k hk := by
    rw [Bounds.get?_insert, if_neg]
    rintro rfl
    exact hk hkey

end State

/-! ## 3. Calls -/

/-- Only keys with the property are known. -/
def Bounds.StaysIn (Q : ValueKey → Prop) (b : Bounds) : Prop := ∀ key, ¬ Q key → b.get? key = none

namespace State

variable {Q : ValueKey → Prop} {s t u : State}

theorem exists_of_mem_pointerArgs {args : List (Ty × Operand)} {p : PointerArg} (h : p ∈ s.pointerArgs args) :
    ∃ arg ∈ args, arg.1.isPointer = true ∧ s.frame.key? arg.2 = some p.addr := by
  obtain ⟨⟨arg, i⟩, hmem, harg⟩ := List.mem_filterMap.mp h
  dsimp only at harg
  split_ifs at harg with hptr
  obtain ⟨addr, haddr, rfl⟩ := Option.map_eq_some_iff.mp harg
  exact ⟨arg, List.fst_mem_of_mem_zipIdx hmem, hptr, haddr⟩

theorem keepsValues_adoptPointee (s : State) (callee : FuncId) (scope : Bounds) (all : List PointerArg)
    (p : PointerArg) : KeepsValues s (s.adoptPointee callee scope all p) := by
  unfold adoptPointee
  dsimp only
  split_ifs
  · cases scope.get? (.arg callee p.index) with
    | none => exact .refl s
    | some i =>
      have hadd : Changes { Licence.still with tells := False, calls := False } s
          { s with frame := s.frame.addMemory (s.frame.aliases.slot p.addr) } := .single (.memory s trivial)
      refine ⟨.of_record (hadd.record id id), rfl, hadd.memory, fun key hlocal hkey => ?_⟩
      -- the slot that is written has become memory
      rw [Bounds.get?_insert, if_neg]
      rintro rfl
      exact hkey (Frame.mem_addMemory.mpr (Or.inl rfl))
  · exact .refl s

/-- What a call leaves behind changes the memory of the caller, and it is merged with what is
known of values. -/
theorem applySummary_keeps (s : State) (m : Module) (callee : FuncId) (args : List (Ty × Operand)) (scope : Bounds) :
    let t := s.applySummary m callee args scope
    t.run = s.run ∧ KeepsPlaces s t ∧
      ∀ key, key.isGlobal = false → key ∉ t.frame.memory →
        ∃ b : Bounds, b.get? key = s.bounds.get? key ∧ t.bounds.get? key = (b.mergeChild scope).get? key := by
  -- the memory behind the arguments is forgotten last
  have hpointees : ∀ s' : State, KeepsValues s' ((s'.pointerArgs args).foldl (fun s p =>
      s.adoptPointee callee scope (s'.pointerArgs args) p)
      ((s'.pointerArgs args).foldl (fun s p => s.forgetPointee m p) s')) := fun s' =>
    (keepsValues_foldl (fun s p => (changes_forgetPointee s m p).keepsValues) _ s').trans
      (keepsValues_foldl (fun s p => keepsValues_adoptPointee s callee scope _ p) _ _)
  have hforget := fun stale => Changes.keepsValues (.single (.forget s m stale))
  refine ⟨(hpointees _).run, ⟨(hpointees _).id, (hpointees _).function, (hpointees _).places, (hpointees _).slots⟩,
    fun key hlocal hkey => ⟨_, ?_, (hpointees _).bounds key hlocal hkey⟩⟩
  exact (hforget _).bounds key hlocal fun hmem => hkey ((hpointees _).memory hmem)

theorem within_applySummary (h : s.frame.Within Q) (m : Module) (callee : FuncId) {args : List (Ty × Operand)}
    (hargs : ∀ arg ∈ args, arg.1.isPointer = true → ∀ addr, s.frame.key? arg.2 = some addr → Q addr)
    (scope : Bounds) : (s.applySummary m callee args scope).frame.Within Q := by
  have hslots : ∀ a ∈ s.pointerArgs args, a.root.isSome = true → Q (s.frame.aliases.slot a.addr) ∧
      Q (s.frame.aliases.slot a.addr) := by
    intro a ha _
    obtain ⟨arg, hmem, hptr, haddr⟩ := exists_of_mem_pointerArgs ha
    have hslot := h.aliases.slot (hargs arg hmem hptr a.addr haddr)
    exact ⟨hslot, hslot⟩
  obtain ⟨t, -, ht, hpointees⟩ := changes_applySummary (p := .within Q) m callee scope hslots
  refine Changes.within hpointees (fun _ => id) ?_
  rw [ht]
  exact h

end State

/-! ## 4. The keys of one function -/

/-- A key of the module or of a given function. -/
def ValueKey.OwnedBy (f : FuncId) (key : ValueKey) : Prop := ∀ g, key.function? = some g → g = f

namespace ValueKey

theorem ownedBy_global (f : FuncId) (g : GlobalId) : (ValueKey.global g).OwnedBy f := fun _ h => by cases h

theorem ownedBy_inst (f : FuncId) (i : InstId) : (ValueKey.inst f i).OwnedBy f := fun _ h => by cases h; rfl

theorem ownedBy_arg (f : FuncId) (i : Nat) : (ValueKey.arg f i).OwnedBy f := fun _ h => by cases h; rfl

theorem ownedBy_of_operand {f : FuncId} {op : Operand} {key : ValueKey} (h : ofOperand? f op = some key) :
    key.OwnedBy f := by
  cases op with
  | inst i => cases h; exact ownedBy_inst f i
  | arg i => cases h; exact ownedBy_arg f i
  | global g => cases h; exact ownedBy_global f g
  | const c | undef => cases h

end ValueKey

namespace State

variable {s : State}

/-- Every instruction but the call of a defined function changes what is known of the keys
that its addresses may have, and of no others. -/
theorem spares_transfer {Q : ValueKey → Prop} (hglobal : ∀ g, Q (.global g)) (hargs : ∀ i, Q (.arg s.frame.id i))
    (h : s.frame.Within Q) (ctx : Context) (descend : Descent) (i : InstId) (inst : Inst)
    (haddr : ∀ op ∈ inst.kind.addresses, ∀ addr, s.frame.key? op = some addr → Q addr)
    (hself : inst.kind.isAddress = true → Q (.inst s.frame.id i))
    (hcall : ∀ callee args, inst.kind = .call callee args →
      Scope.isDebugName callee = true ∨ ctx.module.functionNamed? callee = none) :
    Spares Q s (s.transfer ctx descend i inst).1 := by
  refine Changes.spares (changes_transfer descend ⟨trivial, fun _ _ => trivial, ?_, fun h' => ⟨trivial, hself h', ?_⟩, ?_⟩)
    hglobal h
  · intro q hq
    have hown : Q q := by
      rcases hq with ⟨value, valueTy, ptr, ptrTy, align, addr, hkind, hkey, rfl⟩ |
        ⟨ty, callee, op, rest, d, range, addr, hkind, hdebug, -, -, hkey, rfl⟩
      · exact h.aliases.slot (haddr ptr (by simp [hkind, InstKind.addresses]) addr hkey)
      · exact h.aliases.slot (haddr op (by simp [hkind, InstKind.addresses, hdebug]) addr hkey)
    exact ⟨trivial, hargs, hown, hown⟩
  · exact fun op hop addr hkey => h.aliases.locate (haddr op hop addr hkey)
  · intro callee args d hkind hdebug hd
    rcases hcall callee args hkind with h' | h'
    · cases hdebug.symm.trans h'
    · cases hd.symm.trans h'

/-- An instruction calls a function of the module, or a transfer is of the kind above. -/
theorem transfer_cases {ctx : Context} {descend : Descent} {i : InstId} {inst : Inst} {P : State → Prop} (hself : P s)
    (hother : (∀ callee args, inst.kind = .call callee args →
      Scope.isDebugName callee = true ∨ ctx.module.functionNamed? callee = none) → P (s.transfer ctx descend i inst).1)
    (hcall : ∀ callee args d g, inst.kind = .call callee args → Scope.isDebugName callee = false →
      ctx.module.functionNamed? callee = some d → P (s.callDefined ctx descend i d g args).1) :
    P (s.transfer ctx descend i inst).1 := by
  by_cases hplain : ∀ callee args, inst.kind = .call callee args →
      Scope.isDebugName callee = true ∨ ctx.module.functionNamed? callee = none
  · exact hother hplain
  · push Not at hplain
    obtain ⟨callee, args, hkind, hdebug, hdefined⟩ := hplain
    obtain ⟨d, hd⟩ := Option.ne_none_iff_exists'.mp hdefined
    unfold transfer call
    rw [hkind]
    dsimp only
    rw [if_neg hdebug, hd]
    dsimp only
    split
    · exact hcall callee args d _ hkind (Bool.eq_false_of_not_eq_true hdebug) hd
    · exact hself

end State

end RangedIR
