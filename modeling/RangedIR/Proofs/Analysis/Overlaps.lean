/-
RangedIR.Proofs.Analysis.Overlaps — slots that a store overlaps.

A store forgets the other slots that it may overlap. Addresses at known offsets of one object
are taken not to overlap, however wide the value is that is stored. Where addresses are used
at the types that they point at, this is right for scalars: no other slot starts inside of
them. A structure or an array that is stored as a whole leaves what is known of its parts.
-/
import RangedIR.Proofs.Analysis.Aliases
import RangedIR.Proofs.Analysis.Derivation
import RangedIR.Proofs.Code.Parts

namespace RangedIR

/-! ## 1. Types of addresses -/

/-- The type that an address points at, as it is declared. -/
def Function.pointee? (f : Function) (m : Module) (id : FuncId) : ValueKey → Option Ty
  | .inst g i => if g = id then (f.inst? i).bind (·.ty.pointee?) else none
  | .arg g i => if g = id then f.params[i]?.bind (·.ty.pointee?) else none
  | .global g => m.globals[g]?.map (·.ty)

/-- Parts are taken of addresses of their source type and point at what their indices lead to;
values are stored through addresses of their type. The sizes of these types are machine words. -/
structure Function.AddressesTyped (f : Function) (l : DataLayout) (m : Module) (id : FuncId) : Prop where
  sizes : ∀ key t, f.pointee? m id key = some t → l.exactSize t < 2 ^ 64
  parts : ∀ i ∈ f.layout, ∀ inst inbounds source base baseTy indices key, f.inst? i = some inst →
    inst.kind = .elementPtr inbounds source base baseTy indices → ValueKey.ofOperand? id base = some key →
    f.pointee? m id key = some source ∧ inst.ty.pointee? = Scope.elementType? source indices
  stores : ∀ i ∈ f.layout, ∀ value ty ptr ptrTy align key, f.kind? i = some (.store value ty ptr ptrTy align) →
    ValueKey.ofOperand? id ptr = some key → f.pointee? m id key = some ty

/-! ## 2. Places -/

/-- Outside of unions, an address points at a part of what the root of its place points at. -/
def Frame.Record.Typed (l : DataLayout) (m : Module) (r : Frame.Record) : Prop :=
  r.places.All fun addr place => place.1 ∈ r.unionRoots ∨
    ∃ t x, r.body.function.pointee? m r.body.id place.1 = some t ∧
      r.body.function.pointee? m r.body.id addr = some x ∧ l.Holds t place.2 x

namespace State

variable {s : State} {ctx : Context}

theorem slotted_transfer (hs : s.frame.aliases.Slotted) (descend : Descent) (i : InstId) (inst : Inst) :
    (s.transfer ctx descend i inst).1.frame.aliases.Slotted := by
  change AliasTable.SlottedIn (State.frame _).record.unionRoots (State.frame _).record.places (State.frame _).record.slots
  rcases record_transfer_cases s ctx descend i inst with ⟨body, -, -, h⟩ | ⟨v, src, target, -, -, -, h⟩ |
    ⟨inbounds, source, base, baseTy, indices, target, bits, -, -, -, h⟩
  · rw [h]
    exact hs
  · rw [h]
    exact hs.registerView (.inst s.frame.id i) target
  · rw [h]
    exact hs.registerField (.inst s.frame.id i) target bits

theorem Reachable.slotted {depth : Nat} (h : s.Reachable ctx depth) : s.frame.aliases.Slotted :=
  Reachable.record_induction (P := fun r => AliasTable.SlottedIn r.unionRoots r.places r.slots)
    (fun _ _ => ⟨Table.all_empty, Table.all_empty, Table.all_empty⟩) (fun _ _ hr => hr)
    (fun descend i inst _ _ hs => slotted_transfer hs descend i inst) h

/-- An address of known type lies in what its root points at. -/
theorem holds_of_locate {l : DataLayout} {m : Module} (hs : s.frame.record.Typed l m) {addr r : ValueKey} {o : Nat} {x : Ty}
    (hplace : s.frame.aliases.locate addr = (r, o)) (hr : r ∉ s.frame.aliases.unions.keys)
    (hx : s.frame.function.pointee? m s.frame.id addr = some x) :
    ∃ t, s.frame.function.pointee? m s.frame.id r = some t ∧ l.Holds t o x := by
  unfold AliasTable.locate at hplace
  cases hfind : s.frame.aliases.places.find? addr with
  | none =>
    rw [hfind] at hplace
    cases hplace
    exact ⟨x, hx, .whole x⟩
  | some place =>
    rw [hfind, Option.getD_some] at hplace
    subst hplace
    rcases hs.find? hfind with hroot | ⟨t, x', ht, hx', hholds⟩
    · exact absurd hroot hr
    · obtain rfl := Option.some.inj (hx.symm.trans hx')
      exact ⟨t, ht, hholds⟩

theorem typed_transfer (hs : s.frame.record.Typed ctx.layout ctx.module) (descend : Descent) {i : InstId} {inst : Inst}
    (htyped : s.frame.function.AddressesTyped ctx.layout ctx.module s.frame.id) (hi : i ∈ s.frame.function.layout)
    (hinst : s.frame.function.inst? i = some inst) :
    (s.transfer ctx descend i inst).1.frame.record.Typed ctx.layout ctx.module := by
  rcases record_transfer_cases s ctx descend i inst with ⟨body, hid, hfunction, h⟩ | ⟨v, src, target, -, -, -, h⟩ |
    ⟨inbounds, source, base, baseTy, indices, target, bits, hkind, htarget, hbits, h⟩
  · rw [h]
    unfold Frame.Record.Typed
    dsimp only
    rw [hid, hfunction]
    exact hs
  · rw [h]
    have hroots := s.frame.aliases.mem_keys_registerView (.inst s.frame.id i) target
    refine Table.All.insert (hs.imp fun _ place hplace => ?_) ?_
    · exact hplace.imp_left fun hroot => (hroots _).mpr (Or.inr hroot)
    · exact Or.inl ((hroots _).mpr (Or.inl rfl))
  · rw [h]
    refine Table.All.insert hs ?_
    by_cases hroot : (s.frame.aliases.locate target).1 ∈ s.frame.aliases.unions.keys
    · exact Or.inl hroot
    · -- the part of a part is a part
      obtain ⟨hsource, hpointee⟩ := htyped.parts i hi inst inbounds source base baseTy indices target hinst hkind htarget
      obtain ⟨t, ht, hholds⟩ := holds_of_locate hs rfl hroot hsource
      obtain ⟨x, hx, hpart⟩ := DataLayout.holds_of_elementOffset (htyped.sizes target source hsource) hbits
      have hwhole := hholds.trans hpart
      have hlt := Nat.lt_of_le_of_lt (Nat.le_trans (Nat.le_add_right _ _) hwhole.fits) (htyped.sizes _ t ht)
      refine Or.inr ⟨t, x, ht, ?_, (wrap_of_lt hlt).symm ▸ hwhole⟩
      change (if s.frame.id = s.frame.id then (s.frame.function.inst? i).bind (·.ty.pointee?) else none) = some x
      rw [if_pos rfl, hinst, Option.bind_some, hpointee, hx]

theorem Reachable.typed {depth : Nat} (h : s.Reachable ctx depth) :
    s.frame.function.AddressesTyped ctx.layout ctx.module s.frame.id → s.frame.record.Typed ctx.layout ctx.module := by
  refine Reachable.record_induction (P := fun r => r.body.function.AddressesTyped ctx.layout ctx.module r.body.id →
    r.Typed ctx.layout ctx.module) (fun _ _ _ => Table.all_empty) ?_ ?_ h
  · intro r body hid hfunction hr htyped
    rw [hid, hfunction] at htyped
    unfold Frame.Record.Typed
    dsimp only
    rw [hid, hfunction]
    exact hr htyped
  · intro s descend i inst hi hinst hs htyped
    obtain ⟨hid, hfunction⟩ := id_transfer s ctx descend i inst
    have htyped : s.frame.function.AddressesTyped ctx.layout ctx.module s.frame.id := hid ▸ hfunction ▸ htyped
    exact typed_transfer (hs htyped) descend htyped hi hinst

/-! ## 3. Stores -/

/-- A store through an address leaves what is known of another slot of the same object: both
addresses are known exactly, or the slot is not known as memory. -/
def outlastsStore (s : State) (m : Module) (ptr : Operand) (addr key : ValueKey) : Bool :=
  let root := s.frame.addressRoot ptr
  !(s.frame.memoryKeys m).contains key || (root.isSome && s.isExact root addr && s.isExact root key)

theorem get?_forgetOverlaps {ptr : Operand} {addr key : ValueKey} (m : Module)
    (hroot : s.frame.keyRoot key = s.frame.addressRoot ptr) (hkey : key ≠ s.frame.aliases.slot addr) :
    (s.forgetOverlaps m ptr addr).bounds.get? key =
      if s.outlastsStore m ptr addr key then s.bounds.get? key else none := by
  rw [bounds_forgetOverlaps, Frame.get?_forgetWhere]
  unfold mayOverlap outlastsStore
  rw [hroot]
  by_cases hmem : key ∈ s.frame.memoryKeys m
  · cases hobject : s.frame.addressRoot ptr with
    | none => simp [hmem, hkey]
    | some r =>
      cases hexact : s.isExact (some r) addr <;> cases hexact' : s.isExact (some r) key <;>
        simp [hmem, hkey, hexact, hexact']
  · simp [hmem]

theorem declared_forgetOverlaps (s : State) (m : Module) (ptr : Operand) (addr : ValueKey) :
    (s.forgetOverlaps m ptr addr).frame.declared = s.frame.declared := by
  unfold forgetOverlaps
  dsimp only
  split_ifs
  · rfl
  · cases s.frame.addressRoot ptr <;> rfl

/-- Storing an argument of which nothing is known may give it the range that is declared for
the slot. -/
theorem get?_storedValue (s : State) (slot : ValueKey) (value : Operand) (key : ValueKey) :
    (s.storedValue slot value).1.bounds.get? key = s.bounds.get? key ∨
      s.frame.key? value = some key ∧ s.bounds.get? key = none ∧
        (s.storedValue slot value).1.bounds.get? key = s.frame.declared.find? slot := by
  unfold storedValue
  cases hoperand : s.operand? value with
  | some i => exact Or.inl rfl
  | none =>
    cases value with
    | arg index =>
      unfold storeArgument
      dsimp only
      cases hdeclared : s.frame.declared.find? slot with
      | none => exact Or.inl rfl
      | some i =>
        by_cases hkey : .arg s.frame.id index = key
        · subst hkey
          refine Or.inr ⟨rfl, ?_, by rw [Bounds.get?_insert, if_pos rfl]⟩
          rwa [operand?, Bounds.operand?_of_key rfl] at hoperand
        · exact Or.inl (by rw [Bounds.get?_insert, if_neg hkey])
    | _ => exact Or.inl rfl

/-- What a store leaves of another slot of the same object. An address that is stored itself
may get the range that is declared for where it is stored. -/
theorem get?_store_overlapped {value ptr : Operand} {addr key : ValueKey} {b : Bound} (m : Module) (ty : Ty)
    (haddr : s.frame.key? ptr = some addr) (hroot : s.frame.keyRoot key = s.frame.addressRoot ptr)
    (hkey : key ≠ s.frame.aliases.slot addr) (hb : s.bounds.get? key = some b) :
    if s.outlastsStore m ptr addr key then (s.store m value ty ptr).bounds.get? key = some b
    else (s.store m value ty ptr).bounds.get? key = none ∨ s.frame.key? value = some key ∧
      (s.store m value ty ptr).bounds.get? key = s.frame.declared.find? (s.frame.aliases.slot addr) := by
  have hrecord := record_forgetOverlaps s m ptr addr
  have hforget := get?_forgetOverlaps m hroot hkey
  rw [hb] at hforget
  have hstore : (s.store m value ty ptr).bounds.get? key =
      (({ s.forgetOverlaps m ptr addr with
          frame := (s.forgetOverlaps m ptr addr).frame.addMemory (s.frame.aliases.slot addr) } : State).storedValue
        (s.frame.aliases.slot addr) value).1.bounds.get? key := by
    unfold store
    rw [haddr]
    dsimp only
    rw [slot_of_record hrecord]
    exact (Bounds.get?_set _ _ _ _).trans (if_neg hkey.symm)
  have hstored := get?_storedValue { s.forgetOverlaps m ptr addr with
    frame := (s.forgetOverlaps m ptr addr).frame.addMemory (s.frame.aliases.slot addr) } (s.frame.aliases.slot addr) value key
  rw [← hstore] at hstored
  dsimp only at hstored
  rw [hforget, Frame.addMemory_eq] at hstored
  dsimp only [Frame.key?] at hstored
  rw [declared_forgetOverlaps, show (s.forgetOverlaps m ptr addr).frame.id = s.frame.id from
    congrArg (·.body.id) hrecord] at hstored
  split_ifs at hstored ⊢
  · exact hstored.resolve_right fun h => h.2.1
  · exact hstored.imp_right fun h => ⟨h.1, h.2.2⟩

theorem step_store (ctx : Context) (descend : Descent) {i : InstId} {value ptr : Operand} {ty ptrTy : Ty}
    {align : Option Nat} (h : s.frame.function.kind? i = some (.store value ty ptr ptrTy align)) :
    s.step ctx descend i = s.store ctx.module value ty ptr := by
  obtain ⟨inst, hinst, hkind⟩ := Option.map_eq_some_iff.mp h
  unfold step transfer
  rw [hinst]
  dsimp only
  rw [hkind]

/-! ## 4. Overlapped slots -/

/-- A store of a value through an address leaves what is known of another slot that starts
inside of the value if both are known exactly in a known object, or the slot is no memory.
Otherwise nothing is known of it, unless the slot is an address that is itself stored where a
range was declared. Where addresses are used at their types, the sizes of which are machine
words, such a slot lies in a union, or it is that of a part behind the start of a structure or
array that is stored as a whole: a scalar overlaps no other slot. -/
theorem overlapped_slot_after_store {depth : Nat} (hs : s.Reachable ctx depth) {i : InstId}
    (hi : i ∈ s.frame.function.layout) {value ptr : Operand} {ty ptrTy : Ty} {align : Option Nat}
    (hstore : s.frame.function.kind? i = some (.store value ty ptr ptrTy align)) {addr key r : ValueKey} {o o' : Nat}
    (haddr : s.frame.key? ptr = some addr) (hplace : s.frame.aliases.locate addr = (r, o))
    (hslot : s.frame.aliases.slot key = key) (hother : key ≠ s.frame.aliases.slot addr)
    (hplace' : s.frame.aliases.locate key = (r, o')) (hle : o ≤ o') (hlt : o' < o + ctx.layout.sizeInBits ty)
    {b : Bound} (hb : s.bounds.get? key = some b) :
    let t := s.step ctx (descent ctx depth) i
    (if s.outlastsStore ctx.module ptr addr key then t.bounds.get? key = some b
      else t.bounds.get? key = none ∨ s.frame.key? value = some key ∧
        t.bounds.get? key = s.frame.declared.find? (s.frame.aliases.slot addr)) ∧
    (s.frame.function.AddressesTyped ctx.layout ctx.module s.frame.id →
      s.frame.aliases.isUnion addr = true ∨
      ty.isAggregate = true ∧ o < o' ∧ ∃ x, s.frame.function.pointee? ctx.module s.frame.id key = some x ∧
        ctx.layout.Holds ty (o' - o) x) := by
  have hroot : s.frame.keyRoot key = s.frame.addressRoot ptr := by
    have hkey := @Frame.Record.Traced.locate s.frame hs.traced key
    have haddr' := @Frame.Record.Traced.locate s.frame hs.traced addr
    rw [hplace'] at hkey
    rw [hplace] at haddr'
    calc s.frame.keyRoot key = s.frame.keyRoot r := Function.keyRoot_of_derived hkey
      _ = s.frame.keyRoot addr := (Function.keyRoot_of_derived haddr').symm
      _ = s.frame.addressRoot ptr := Function.keyRoot_of_operand haddr
  refine ⟨?_, fun htyped => ?_⟩
  · rw [step_store ctx (descent ctx depth) hstore]
    exact get?_store_overlapped ctx.module ty haddr hroot hother hb
  · by_cases hr : r ∈ s.frame.aliases.unions.keys
    · refine Or.inl ?_
      rw [AliasTable.isUnion, hplace]
      exact Table.mem_keys.mp hr
    · -- at the start of the value there is no other slot
      have hne : o' ≠ o := by
        rintro rfl
        have hsame : s.frame.aliases.slot addr = s.frame.aliases.slot key := by
          rw [hs.slotted.slot_eq (by rwa [hplace]), hs.slotted.slot_eq (by rwa [hplace']), hplace, hplace']
        exact hother (hsame.trans hslot).symm
      have hty := htyped.stores i hi value ty ptr ptrTy align addr hstore haddr
      rw [DataLayout.sizeInBits_of_lt (htyped.sizes addr ty hty)] at hlt
      obtain ⟨t, ht, hholds⟩ := holds_of_locate (hs.typed htyped) hplace hr hty
      -- a slot behind the start of its root has been entered
      cases hfind : s.frame.aliases.places.find? key with
      | none =>
        rw [AliasTable.locate, hfind] at hplace'
        cases hplace'
        omega
      | some place =>
        rw [AliasTable.locate, hfind, Option.getD_some] at hplace'
        subst hplace'
        obtain ⟨t', x, ht', hx, hholds'⟩ := ((hs.typed htyped).find? hfind).resolve_left hr
        obtain rfl := Option.some.inj (ht.symm.trans ht')
        have hinside := (hholds.of_overlap hholds' hle hlt).resolve_left hne
        refine Or.inr ⟨?_, by omega, x, hx, hinside⟩
        by_contra hscalar
        have hzero := hinside.eq_zero_of_scalar (Bool.eq_false_of_not_eq_true hscalar)
        omega

end State

/-! ## 5. Structures -/

/-- Two numbers. -/
def pairTy : Ty := .struct none [.int 32, .int 32]

/-- Writes the second number of a pair in an array, at an index that is not known, and then the
pair as a whole; and does the same to a single pair, whose second number it reads. -/
def filler : Function where
  name := "main"
  retTy := .int 32
  params := [⟨"i", .int 32⟩, ⟨"s", .ptr pairTy⟩]
  rangeType := none
  blocks := [⟨"entry", [0, 1, 2, 3, 4, 5, 6, 7, 8, 9, 10, 11]⟩]
  insts := [
    ⟨some "x", .load (.arg 1) (.ptr pairTy) none, pairTy, none, 0, false⟩,
    ⟨some "a", .alloca (.array 4 pairTy) none, .ptr (.array 4 pairTy), none, 0, false⟩,
    ⟨some "e", .elementPtr false (.array 4 pairTy) (.inst 1) (.ptr (.array 4 pairTy))
      [(.int 32, .const (.int 0)), (.int 32, .arg 0)], .ptr pairTy, none, 0, false⟩,
    ⟨some "p", .elementPtr false pairTy (.inst 2) (.ptr pairTy)
      [(.int 32, .const (.int 0)), (.int 32, .const (.int 1))], .ptr (.int 32), none, 0, false⟩,
    ⟨none, .store (.const (.int 3)) (.int 32) (.inst 3) (.ptr (.int 32)) none, .void, none, 0, false⟩,
    ⟨none, .store (.inst 0) pairTy (.inst 2) (.ptr pairTy) none, .void, none, 0, false⟩,
    ⟨some "b", .alloca pairTy none, .ptr pairTy, none, 0, false⟩,
    ⟨some "q", .elementPtr false pairTy (.inst 6) (.ptr pairTy)
      [(.int 32, .const (.int 0)), (.int 32, .const (.int 1))], .ptr (.int 32), none, 0, false⟩,
    ⟨none, .store (.const (.int 3)) (.int 32) (.inst 7) (.ptr (.int 32)) none, .void, none, 0, false⟩,
    ⟨none, .store (.inst 0) pairTy (.inst 6) (.ptr pairTy) none, .void, none, 0, false⟩,
    ⟨some "v", .load (.inst 7) (.ptr (.int 32)) none, .int 32, none, 0, false⟩,
    ⟨none, .ret (some (.int 32, .inst 10)), .void, none, 0, false⟩]

/-- The module of the function. -/
def filling : Context := ⟨⟨none, [], [], [], [filler]⟩, .default, .default, true⟩

/-- The function uses its addresses at their types. -/
theorem filler_addressesTyped : filler.AddressesTyped filling.layout filling.module 0 := by
  have hlayout : filler.layout = List.range 12 := rfl
  have hsizes : ∀ ty ∈ filler.insts.map (·.ty) ++ filler.params.map (·.ty),
      ty.pointee?.all (fun t => filling.layout.exactSize t < 2 ^ 64) = true := by decide
  constructor
  · intro key t ht
    cases key with
    | inst g i =>
      obtain ⟨-, ht⟩ := Option.ite_none_right_eq_some.mp ht
      obtain ⟨inst, hinst, ht⟩ := Option.bind_eq_some_iff.mp ht
      have hmem := List.mem_map_of_mem (f := (·.ty)) (List.mem_of_getElem? hinst)
      simpa [ht] using hsizes _ (List.mem_append_left _ hmem)
    | arg g i =>
      obtain ⟨-, ht⟩ := Option.ite_none_right_eq_some.mp ht
      obtain ⟨param, hparam, ht⟩ := Option.bind_eq_some_iff.mp ht
      have hmem := List.mem_map_of_mem (f := (·.ty)) (List.mem_of_getElem? hparam)
      simpa [ht] using hsizes _ (List.mem_append_right _ hmem)
    | global g => cases ht
  · intro i hi inst inbounds source base baseTy indices key hinst hkind hkey
    rw [hlayout, List.mem_range] at hi
    interval_cases i
    all_goals
      cases hinst
      cases hkind
      try cases hkey
      try exact ⟨rfl, rfl⟩
  · intro i hi value ty ptr ptrTy align key hkind hkey
    rw [hlayout, List.mem_range] at hi
    interval_cases i
    all_goals
      cases hkind
      try cases hkey
      try rfl

namespace State

/-- The function after some of its instructions. -/
def fillerAfter (n : Nat) : State :=
  (List.range n).foldl (fun s i => s.step filling (descent filling 0) i)
    (ofCall Run.initial.restart 0 filler (.ofSeeds .empty) none)

theorem fillerAfter_reachable {n : Nat} (hn : n ≤ 12) :
    (fillerAfter n).Reachable filling 0 ∧ (fillerAfter n).frame.function = filler :=
  Reachable.foldl_step (List.range n) (.root Run.initial (.ofSeeds .empty) rfl) fun i hi =>
    (List.mem_range.mpr ((List.mem_range.mp hi).trans_le hn) : i ∈ List.range 12)

/-- The pair in the array is stored through an address at no known offset: the number, which
is a part of the pair, is forgotten. -/
theorem overlapped_slot_after_store_inexact :
    (fillerAfter 5).bounds.get? (.inst 0 3) = some ⟨3.0, 3.0⟩ ∧
    ((fillerAfter 5).step filling (descent filling 0) 5).bounds.get? (.inst 0 3) = none ∧
    DataLayout.default.Holds pairTy 32 (.int 32) := by
  obtain ⟨hs, hf⟩ := fillerAfter_reachable (by decide : 5 ≤ 12)
  have hbound : (fillerAfter 5).bounds.get? (.inst 0 3) = some ⟨3.0, 3.0⟩ := rfl
  have hid : (fillerAfter 5).frame.id = 0 := rfl
  obtain ⟨hforgotten, hpart⟩ := overlapped_slot_after_store hs (by rw [hf]; decide)
    (show (fillerAfter 5).frame.function.kind? 5 = some (.store (.inst 0) pairTy (.inst 2) (.ptr pairTy) none) by
      rw [hf]; rfl)
    (show (fillerAfter 5).frame.key? (.inst 2) = some (.inst 0 2) from rfl)
    (show (fillerAfter 5).frame.aliases.locate (.inst 0 2) = (.inst 0 2, 0) from rfl)
    (show (fillerAfter 5).frame.aliases.slot (.inst 0 3) = .inst 0 3 from rfl) (by decide)
    (show (fillerAfter 5).frame.aliases.locate (.inst 0 3) = (.inst 0 2, 32) from rfl) (by decide)
    (by decide) hbound
  refine ⟨hbound, ?_, ?_⟩
  · rw [if_neg (by decide)] at hforgotten
    exact hforgotten.resolve_right fun ⟨hvalue, _⟩ => absurd hvalue (by decide)
  · rw [hf, hid] at hpart
    rcases hpart filler_addressesTyped with hunion | ⟨-, -, x, hx, hholds⟩
    · exact absurd hunion (by decide)
    · cases hx
      exact hholds

/-- The single pair is stored through its own address: the number stays known as it was before
the store, and is what a load yields. -/
theorem part_outlasts_store_of_whole :
    (fillerAfter 9).Reachable filling 0 ∧ filler.AddressesTyped filling.layout filling.module 0 ∧
    filler.kind? 9 = some (.store (.inst 0) pairTy (.inst 6) (.ptr pairTy) none) ∧
    (fillerAfter 9).frame.aliases.locate (.inst 0 6) = (.inst 0 6, 0) ∧
    (fillerAfter 9).frame.aliases.locate (.inst 0 7) = (.inst 0 6, 32) ∧
    (fillerAfter 9).frame.aliases.slot (.inst 0 7) = .inst 0 7 ∧ DataLayout.default.sizeInBits pairTy = 64 ∧
    ((fillerAfter 9).step filling (descent filling 0) 9).bounds.get? (.inst 0 7) = some ⟨3.0, 3.0⟩ ∧
    ((fillerAfter 9).step filling (descent filling 0) 9).load (.int 32) (.inst 7) = some ⟨3.0, 3.0⟩ :=
  ⟨(fillerAfter_reachable (by decide)).1, filler_addressesTyped, rfl, rfl, rfl, rfl, rfl, rfl, rfl⟩

end State

end RangedIR
