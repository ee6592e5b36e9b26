/-
RangedIR.Proofs.Analysis.Forgetting — what is known of memory behind a call that is not
gone through.

A function that is not defined may write every global and whatever its arguments point
into. What is known of memory is kept in two places, the slots and the unions, and each of
them is forgotten by a rule of its own. A call to a defined function that is not followed
forgets nothing.
-/
import RangedIR.Proofs.Analysis.Derivation

namespace RangedIR

/-! ## 1. Places -/

/-- The root of a place lies in the object of every address that has the place, and so does
the key that stands for the place. -/
structure AliasTable.Rooted (root : ValueKey → Option ValueKey) (t : AliasTable) : Prop where
  places : t.places.All fun addr place => ∀ r, root addr = some r → root place.1 = some r
  slots : t.slots.All fun place key => ∀ r, root key = some r → root place.1 = some r

/-- The key under which the value at an address is kept lies in the object of the address,
if it lies in one. -/
theorem AliasTable.Rooted.slot {root : ValueKey → Option ValueKey} {t : AliasTable} (h : t.Rooted root) {addr r : ValueKey}
    (hr : root addr = some r) : root (t.slot addr) = none ∨ root (t.slot addr) = some r := by
  unfold AliasTable.slot
  cases hp : t.places.find? addr with
  | none => exact Or.inr hr
  | some place =>
    dsimp only
    cases hs : t.slots.find? place with
    | none => exact Or.inr hr
    | some key =>
      rw [Option.getD_some]
      cases hkey : root key with
      | none => exact Or.inl rfl
      | some r' =>
        have hplace := h.places.find? hp r hr
        rw [h.slots.find? hs r' hkey] at hplace
        exact Or.inr hplace

/-- The addresses of a frame have places in their objects. -/
def Frame.Rooted (f : Frame) : Prop := f.aliases.Rooted f.keyRoot

namespace State

variable {s : State}

/-- In every state that is reached, the addresses have places in their objects. -/
theorem Reachable.rooted {ctx : Context} {depth : Nat} (h : s.Reachable ctx depth) : s.frame.Rooted := by
  obtain ⟨hplaces, hslots, -⟩ := h.traced
  refine ⟨hplaces.imp fun addr place hderived r hr => ?_, hslots.imp fun place key hderived r hr => ?_⟩
  · exact (Function.keyRoot_of_derived hderived.to_reflTransGen).symm.trans hr
  · exact (Function.keyRoot_of_derived hderived).symm.trans hr

/-! ## 2. Forgetting -/

/-- Whether a function that is not known may write an object, given its arguments: a global
that is not constant, or an object that an address among the arguments points into. An
address of unknown origin may point into every object. -/
def mayWrite (s : State) (m : Module) (args : List (Ty × Operand)) (r : ValueKey) : Bool :=
  m.isMutable r || args.any fun arg => arg.1.isPointer && (s.frame.addressRoot arg.2).all (· == r)

/-- Whether the union at a root is forgotten at an opaque call: an argument points into
it. -/
def invalidates (s : State) (args : List (Ty × Operand)) (root : ValueKey) : Bool :=
  args.any fun arg => arg.1.isPointer &&
    (s.frame.addressRoot arg.2).all fun r => (s.frame.aliases.locate r).1 == root

/-- The objects of the addresses among the arguments. -/
def pointerRoots (s : State) (args : List (Ty × Operand)) : List (Option ValueKey) :=
  (args.filter fun arg => arg.1.isPointer).map fun arg => s.frame.addressRoot arg.2

variable {args : List (Ty × Operand)}

theorem mem_pointerRoots {root : Option ValueKey} :
    root ∈ s.pointerRoots args ↔ ∃ arg ∈ args, arg.1.isPointer = true ∧ s.frame.addressRoot arg.2 = root := by
  simp only [pointerRoots, List.mem_map, List.mem_filter, and_assoc]

theorem mayWrite_iff {m : Module} {r : ValueKey} :
    s.mayWrite m args r = true ↔
      none ∈ s.pointerRoots args ∨ m.isMutable r = true ∨ some r ∈ s.pointerRoots args := by
  have hany : (args.any fun arg => arg.1.isPointer && (s.frame.addressRoot arg.2).all (· == r)) = true ↔
      none ∈ s.pointerRoots args ∨ some r ∈ s.pointerRoots args := by
    simp only [List.any_eq_true, Bool.and_eq_true, mem_pointerRoots, ← exists_or, ← and_or_left]
    refine exists_congr fun arg => and_congr_right fun _ => and_congr_right fun _ => ?_
    cases s.frame.addressRoot arg.2 <;> simp
  unfold mayWrite
  rw [Bool.or_eq_true, hany]
  exact or_left_comm

theorem invalidates_iff {root : ValueKey} :
    s.invalidates args root = true ↔
      none ∈ s.pointerRoots args ∨ ∃ r, some r ∈ s.pointerRoots args ∧ (s.frame.aliases.locate r).1 = root := by
  unfold invalidates
  simp only [List.any_eq_true, Bool.and_eq_true, mem_pointerRoots]
  constructor
  · rintro ⟨arg, harg, hptr, hall⟩
    cases hroot : s.frame.addressRoot arg.2 with
    | none => exact Or.inl ⟨arg, harg, hptr, hroot⟩
    | some r =>
      rw [hroot] at hall
      exact Or.inr ⟨r, ⟨arg, harg, hptr, hroot⟩, by simpa using hall⟩
  · rintro (⟨arg, harg, hptr, hroot⟩ | ⟨r, ⟨arg, harg, hptr, hroot⟩, hlocate⟩)
    · exact ⟨arg, harg, hptr, by rw [hroot]; rfl⟩
    · exact ⟨arg, harg, hptr, by rw [hroot]; simpa using hlocate⟩

theorem bounds_foldl_invalidate (roots : List (Option ValueKey)) (s : State) :
    (roots.foldl (fun s root => s.invalidate root) s).bounds = s.bounds := by
  refine List.foldlRecOn (motive := fun t : State => t.bounds = s.bounds) _ _ rfl fun t ht root _ => ?_
  cases root <;> exact ht

/-- An opaque call forgets slots by their objects, and then unions. -/
theorem clobber_eq (s : State) (m : Module) (args : List (Ty × Operand)) :
    ∃ stale, (∀ key root, stale key root = root.all (s.mayWrite m args)) ∧
      s.clobber m args = if (s.pointerRoots args).contains none then (s.forgetWhere m stale).invalidate none
        else (s.pointerRoots args).foldl (fun s root => s.invalidate root) (s.forgetWhere m stale) := by
  refine ⟨_, ?_, rfl⟩
  intro key root
  cases root with
  | none => rfl
  | some r =>
    rw [Bool.eq_iff_iff, Option.all_some, mayWrite_iff]
    simp only [Bool.or_eq_true, List.contains_iff_mem, or_assoc]
    rfl

/-- At an opaque call the slots of the objects are forgotten that may be written. -/
theorem get?_clobber (s : State) (m : Module) (args : List (Ty × Operand)) (key : ValueKey) :
    (s.clobber m args).bounds.get? key =
      if key ∈ s.frame.memoryKeys m ∧ (s.frame.keyRoot key).all (s.mayWrite m args) = true then none
      else s.bounds.get? key := by
  obtain ⟨stale, hstale, heq⟩ := clobber_eq s m args
  have hbounds : (s.clobber m args).bounds = (s.forgetWhere m stale).bounds := by
    rw [heq]
    split_ifs
    · rfl
    · exact bounds_foldl_invalidate _ _
  rw [hbounds, ← hstale key]
  exact Frame.get?_forgetWhere s.frame m s.bounds stale key

theorem find?_invalidate (t : AliasTable) (r root : ValueKey) :
    (t.invalidate r).unions.find? root =
      if (t.locate r).1 = root then (t.unions.find? root).map fun _ => .untyped else t.unions.find? root :=
  t.find?_recordWrite r none none root

theorem find?_foldl_invalidate (root : ValueKey) (roots : List (Option ValueKey)) (hroots : none ∉ roots) :
    ∀ s : State, (roots.foldl (fun s root => s.invalidate root) s).frame.aliases.unions.find? root =
      if roots.any (·.any fun r => (s.frame.aliases.locate r).1 == root) then
        (s.frame.aliases.unions.find? root).map fun _ => .untyped
      else s.frame.aliases.unions.find? root := by
  induction roots with
  | nil => exact fun s => rfl
  | cons first rest ih =>
    intro s
    obtain ⟨hfirst, hrest⟩ := not_or.mp (List.mem_cons.not.mp hroots)
    cases first with
    | none => exact absurd rfl hfirst
    | some r₀ =>
      have hplaces : (s.invalidate (some r₀)).frame.aliases.places = s.frame.aliases.places :=
        (changes_invalidate s (some r₀)).keepsValues.places
      have hlocate : (s.invalidate (some r₀)).frame.aliases.locate = s.frame.aliases.locate := by
        funext addr
        unfold AliasTable.locate
        rw [hplaces]
      have hhere : (s.invalidate (some r₀)).frame.aliases.unions.find? root = _ :=
        find?_invalidate s.frame.aliases r₀ root
      rw [List.foldl_cons, ih hrest, hlocate, hhere, List.any_cons, Option.any_some]
      by_cases hr₀ : (s.frame.aliases.locate r₀).1 = root
      · rw [if_pos hr₀, beq_iff_eq.mpr hr₀, Bool.true_or, Option.map_map]
        cases rest.any (·.any fun r => (s.frame.aliases.locate r).1 == root) <;> rfl
      · rw [if_neg hr₀, beq_false_of_ne hr₀, Bool.false_or]

/-- At an opaque call the unions are forgotten that the arguments point into. -/
theorem find?_clobber (s : State) (m : Module) (args : List (Ty × Operand)) (root : ValueKey) :
    (s.clobber m args).frame.aliases.unions.find? root =
      if s.invalidates args root then (s.frame.aliases.unions.find? root).map fun _ => .untyped
      else s.frame.aliases.unions.find? root := by
  obtain ⟨stale, -, heq⟩ := clobber_eq s m args
  rw [heq]
  have hany : (s.pointerRoots args).any (·.any fun r => (s.frame.aliases.locate r).1 == root) = true ↔
      ∃ r, some r ∈ s.pointerRoots args ∧ (s.frame.aliases.locate r).1 = root := by
    simp only [List.any_eq_true, Option.any_eq_true, beq_iff_eq]
    constructor
    · rintro ⟨_, hmem, r, rfl, hr⟩
      exact ⟨r, hmem, hr⟩
    · rintro ⟨r, hmem, hr⟩
      exact ⟨some r, hmem, r, rfl, hr⟩
  by_cases heverything : none ∈ s.pointerRoots args
  · rw [if_pos (List.contains_iff_mem.mpr heverything), if_pos (invalidates_iff.mpr (Or.inl heverything))]
    exact Table.find?_mapValues s.frame.aliases.unions _ root
  · rw [if_neg (fun h => heverything (List.contains_iff_mem.mp h)), find?_foldl_invalidate root _ heverything]
    refine if_congr ?_ rfl rfl
    rw [invalidates_iff, or_iff_right heverything]
    exact hany

/-- Whether what is read through an address outlasts an opaque call: the address lies in a
union that no argument points into, or its slot is not known as memory. -/
def outlasts (s : State) (m : Module) (args : List (Ty × Operand)) (addr : ValueKey) : Bool :=
  if s.frame.aliases.isUnion addr then !s.invalidates args (s.frame.aliases.locate addr).1
  else !(s.frame.memoryKeys m).contains (s.frame.aliases.slot addr)

theorem keepsValues_clobber (s : State) (m : Module) (args : List (Ty × Operand)) : KeepsValues s (s.clobber m args) :=
  (changes_clobber s m args).keepsValues

theorem isUnion_clobber (s : State) (m : Module) (args : List (Ty × Operand)) (addr : ValueKey) :
    (s.clobber m args).frame.aliases.isUnion addr = s.frame.aliases.isUnion addr ∧
      (s.clobber m args).frame.aliases.locate addr = s.frame.aliases.locate addr ∧
      (s.clobber m args).frame.aliases.slot addr = s.frame.aliases.slot addr := by
  have hkeeps := keepsValues_clobber s m args
  have hlocate : (s.clobber m args).frame.aliases.locate addr = s.frame.aliases.locate addr := by
    unfold AliasTable.locate
    rw [hkeeps.places]
  refine ⟨?_, hlocate, ?_⟩
  · unfold AliasTable.isUnion
    rw [hlocate, Table.contains_eq, Table.contains_eq, find?_clobber]
    split_ifs
    · rw [Option.isSome_map]
    · rfl
  · unfold AliasTable.slot
    rw [hkeeps.places, hkeeps.slots]

theorem read?_clobber (s : State) (m : Module) (args : List (Ty × Operand)) (addr : ValueKey) (kind : ScalarKind) :
    (s.clobber m args).frame.aliases.read? addr kind =
      if s.invalidates args (s.frame.aliases.locate addr).1 then none else s.frame.aliases.read? addr kind := by
  unfold AliasTable.read?
  rw [(isUnion_clobber s m args addr).2.1]
  dsimp only
  rw [find?_clobber]
  cases s.invalidates args (s.frame.aliases.locate addr).1 with
  | false => rfl
  | true => cases s.frame.aliases.unions.find? (s.frame.aliases.locate addr).1 <;> rfl

/-- A read behind an opaque call, through an address into an object that the call may
write: what does not outlast the call is not known any more. -/
theorem readAt_clobber (hs : s.frame.Rooted) (m : Module) (args : List (Ty × Operand)) {addr r : ValueKey}
    (hroot : s.frame.keyRoot addr = some r) (hwrite : s.mayWrite m args r = true) (ty : Ty) :
    (s.clobber m args).readAt addr ty = if s.outlasts m args addr then s.readAt addr ty else none := by
  obtain ⟨hunion, -, hslot⟩ := isUnion_clobber s m args addr
  unfold readAt outlasts
  rw [hunion, hslot]
  cases hu : s.frame.aliases.isUnion addr with
  | true =>
    simp only [if_true]
    cases ScalarKind.ofType? ty with
    | none => simp
    | some kind =>
      rw [Option.bind_some, Option.bind_some, read?_clobber]
      cases s.invalidates args (s.frame.aliases.locate addr).1 <;> rfl
  | false =>
    simp only [Bool.false_eq_true, if_false]
    have hstale : (s.frame.keyRoot (s.frame.aliases.slot addr)).all (s.mayWrite m args) = true := by
      rcases AliasTable.Rooted.slot hs hroot with h | h
      · rw [h]
        rfl
      · rw [h]
        exact hwrite
    rw [get?_clobber, hstale]
    by_cases hmem : s.frame.aliases.slot addr ∈ s.frame.memoryKeys m
    · rw [if_pos ⟨hmem, rfl⟩, List.contains_iff_mem.mpr hmem]
      rfl
    · rw [if_neg fun h => hmem h.1, if_pos]
      simpa using hmem

end State

/-! ## 3. Opaque calls -/

/-- An instruction calls a function that is neither defined nor known by its name. -/
structure Function.CallsOpaque (f : Function) (m : Module) (i : InstId) (inst : Inst) (callee : String)
    (args : List (Ty × Operand)) : Prop where
  here : f.inst? i = some inst
  kind : inst.kind = .call callee args
  notDebug : Scope.isDebugName callee = false
  notDefined : m.functionNamed? callee = none
  notRoutine : Routine.ofName? callee = none

/-- An opaque call forgets, and tells that it is not modelled. -/
theorem State.transfer_opaque {ctx : Context} {s : State} {i : InstId} {inst : Inst} {callee : String}
    {args : List (Ty × Operand)} (descend : Descent)
    (hcall : s.frame.function.CallsOpaque ctx.module i inst callee args) :
    (s.transfer ctx descend i inst).1.frame = (s.clobber ctx.module args).frame ∧
      (s.transfer ctx descend i inst).1.bounds = (s.clobber ctx.module args).bounds := by
  unfold transfer
  rw [hcall.kind]
  dsimp only
  unfold call callExternal
  rw [if_neg (by simp [hcall.notDebug]), hcall.notDefined]
  dsimp only
  rw [hcall.notRoutine]
  dsimp only
  split
  · exact ⟨rfl, rfl⟩
  · exact ⟨conclude_frame _ _ _, conclude_bounds _ _ _⟩

/-- Behind an opaque call, a load through an address into an object that the call may write
yields what it yielded before, if the address lies in a union that no argument of the call
points into or its slot is not known as memory. In all other cases it yields nothing. -/
theorem State.load_after_opaque_call {ctx : Context} {depth : Nat} {s : State} (hs : s.Reachable ctx depth)
    {i : InstId} {inst : Inst} {callee : String} {args : List (Ty × Operand)}
    (hcall : s.frame.function.CallsOpaque ctx.module i inst callee args) {ptr : Operand} {addr r : ValueKey}
    (haddr : s.frame.key? ptr = some addr) (hroot : s.frame.addressRoot ptr = some r)
    (hwrite : s.mayWrite ctx.module args r = true) (ty : Ty) :
    (s.transfer ctx (descent ctx depth) i inst).1.load ty ptr =
      if s.outlasts ctx.module args addr then s.load ty ptr else none := by
  obtain ⟨hframe, hbounds⟩ := transfer_opaque (descent ctx depth) hcall
  have hroot' : s.frame.keyRoot addr = some r := by
    rw [← hroot]
    exact Function.keyRoot_of_operand haddr
  have hkey : (s.clobber ctx.module args).frame.key? ptr = some addr := by
    unfold Frame.key?
    rw [(keepsValues_clobber s ctx.module args).id]
    exact haddr
  calc (s.transfer ctx (descent ctx depth) i inst).1.load ty ptr
      = (s.clobber ctx.module args).load ty ptr := by
        unfold load readAt
        rw [hframe, hbounds]
    _ = (s.clobber ctx.module args).readAt addr ty := by
        unfold load
        rw [hkey, Option.bind_some]
    _ = if s.outlasts ctx.module args addr then s.readAt addr ty else none :=
        readAt_clobber hs.rooted ctx.module args hroot' hwrite ty
    _ = if s.outlasts ctx.module args addr then s.load ty ptr else none := by
        unfold load
        rw [haddr, Option.bind_some]

/-- A function with a cell and a global that is seen as two types, and an opaque call with
the cell. -/
def viewer : Function where
  name := "viewer"
  retTy := .int 32
  params := []
  rangeType := none
  blocks := [⟨"entry", [0, 1, 2, 3, 4, 5]⟩]
  insts := [
    ⟨some "a", .alloca (.int 32) none, .ptr (.int 32), none, 0, false⟩,
    ⟨some "p", .view (.global 0) (.ptr (.int 32)), .ptr .float, none, 0, false⟩,
    ⟨none, .store (.const (.int 7)) (.int 32) (.inst 0) (.ptr (.int 32)) none, .void, none, 0, false⟩,
    ⟨none, .store (.const (.int 5)) (.int 32) (.global 0) (.ptr (.int 32)) none, .void, none, 0, false⟩,
    ⟨none, .call "outside" [(.ptr (.int 32), .inst 0)], .void, none, 0, false⟩,
    ⟨none, .ret (some (.int 32, .const (.int 0))), .void, none, 0, false⟩]

/-- The module of the viewer, with a global that may be written. -/
def viewerContext : Context :=
  ⟨⟨none, [], [⟨"g", false, .int 32, .scalar (.int 0)⟩], [], [viewer]⟩, .default, .default, true⟩

namespace State

/-- The viewer before its call. -/
def viewerState : State :=
  ((((State.ofCall Run.initial.restart 0 viewer (.ofSeeds .empty) none).step viewerContext (descent viewerContext 0)
    0).step viewerContext (descent viewerContext 0) 1).step viewerContext (descent viewerContext 0) 2).step viewerContext
      (descent viewerContext 0) 3

theorem viewerState_reachable : viewerState.Reachable viewerContext 0 ∧ viewerState.frame.function = viewer := by
  have h₀ : (State.ofCall Run.initial.restart 0 viewer (.ofSeeds .empty) none).Reachable viewerContext 0 :=
    .root Run.initial (.ofSeeds .empty) rfl
  have hstep : ∀ {s : State} {i : InstId}, i ∈ viewer.layout →
      s.Reachable viewerContext 0 ∧ s.frame.function = viewer →
      (s.step viewerContext (descent viewerContext 0) i).Reachable viewerContext 0 ∧
        (s.step viewerContext (descent viewerContext 0) i).frame.function = viewer := by
    rintro s i hi ⟨hs, hf⟩
    rw [← hf] at hi ⊢
    exact ⟨hs.step hi, (hs.frame_step hi).2⟩
  exact hstep (by decide) (hstep (by decide) (hstep (by decide) (hstep (by decide) ⟨h₀, rfl⟩)))

theorem viewerState_callsOpaque : viewerState.frame.function.CallsOpaque viewerContext.module 4
    ⟨none, .call "outside" [(.ptr (.int 32), .inst 0)], .void, none, 0, false⟩ "outside"
    [(.ptr (.int 32), .inst 0)] := by
  rw [viewerState_reachable.2]
  exact ⟨rfl, rfl, by decide, by decide, by decide⟩

/-- The cell that the call is given is forgotten. -/
theorem load_after_opaque_call_cell :
    viewerState.load (.int 32) (.inst 0) = some ⟨7.0, 7.0⟩ ∧
    (viewerState.transfer viewerContext (descent viewerContext 0) 4
      ⟨none, .call "outside" [(.ptr (.int 32), .inst 0)], .void, none, 0, false⟩).1.load (.int 32) (.inst 0) = none := by
  refine ⟨by decide, ?_⟩
  have haddr : viewerState.frame.key? (.inst 0) = some (.inst 0 0) := by decide
  rw [load_after_opaque_call viewerState_reachable.1 viewerState_callsOpaque haddr (r := .inst 0 0)
    (by decide) (by decide) (.int 32)]
  exact if_neg (by decide)

/-- A global that is seen as two types is not forgotten, although the call may write it. -/
theorem seen_global_outlasts_opaque_call :
    viewerState.Reachable viewerContext 0 ∧
    viewerState.frame.function.CallsOpaque viewerContext.module 4
      ⟨none, .call "outside" [(.ptr (.int 32), .inst 0)], .void, none, 0, false⟩ "outside"
      [(.ptr (.int 32), .inst 0)] ∧
    viewerState.mayWrite viewerContext.module [(.ptr (.int 32), .inst 0)] (.global 0) = true ∧
    viewerState.load (.int 32) (.global 0) = some ⟨5.0, 5.0⟩ ∧
    (viewerState.transfer viewerContext (descent viewerContext 0) 4
      ⟨none, .call "outside" [(.ptr (.int 32), .inst 0)], .void, none, 0, false⟩).1.load (.int 32) (.global 0) =
        some ⟨5.0, 5.0⟩ :=
  ⟨viewerState_reachable.1, viewerState_callsOpaque, by decide, by decide, by decide⟩

/-! ## 4. Calls that are not followed -/

/-- At a call that is not followed nothing changes but that it is told. The call therefore
forgets at least what an opaque call would forget, of slots and of unions, only where an
opaque call would forget nothing. -/
theorem refused_call_forgets_nothing {ctx : Context} {s : State} {i : InstId} {inst : Inst} {callee : String}
    {args : List (Ty × Operand)} {d : FuncId} {g : Function} (descend : Descent)
    (hcall : s.frame.function.CallsAt ctx.module i inst callee args d) (hg : ctx.module.functions[d]? = some g)
    (hrefused : s.run.isActive d = true ∨ ctx.limits.maxCallDepth ≤ s.run.stack.length) :
    let t := (s.transfer ctx descend i inst).1
    let forgotten := s.clobber ctx.module args
    (s.transfer ctx descend i inst).2 = none ∧ t.bounds = s.bounds ∧ t.frame = s.frame ∧
      (((∀ key, forgotten.bounds.get? key = none → t.bounds.get? key = none) ∧
        ∀ root, forgotten.frame.aliases.unions.find? root = some .untyped →
          t.frame.aliases.unions.find? root = some .untyped) ↔
      (∀ key, forgotten.bounds.get? key = s.bounds.get? key) ∧
        ∀ root, forgotten.frame.aliases.unions.find? root = s.frame.aliases.unions.find? root) := by
  obtain ⟨remark, hremark⟩ : ∃ remark, s.refusal? ctx d g.name = some remark := by
    unfold refusal?
    split_ifs with hactive hdepth
    · exact ⟨_, rfl⟩
    · exact ⟨_, rfl⟩
    · exact absurd hrefused (not_or.mpr ⟨hactive, hdepth⟩)
  rw [transfer_call descend hcall hg, callDefined_of_refusal hremark]
  refine ⟨rfl, rfl, rfl, fun ⟨hslots, hunions⟩ => ⟨fun key => ?_, fun root => ?_⟩, fun ⟨hslots, hunions⟩ =>
    ⟨fun key h => (hslots key).symm.trans h, fun root h => (hunions root).symm.trans h⟩⟩
  · specialize hslots key
    rw [get?_clobber] at hslots ⊢
    split_ifs at hslots ⊢
    · exact (hslots rfl).symm
    · rfl
  · specialize hunions root
    rw [find?_clobber] at hunions ⊢
    split_ifs at hunions ⊢
    · cases hfind : s.frame.aliases.unions.find? root with
      | none => rfl
      | some u =>
        rw [hfind] at hunions
        exact (hunions rfl).symm.trans hfind
    · rfl

end State

/-- A function that writes a global and calls itself. -/
def writer : Function where
  name := "writer"
  retTy := .int 32
  params := []
  rangeType := none
  blocks := [⟨"entry", [0, 1, 2]⟩]
  insts := [
    ⟨none, .store (.const (.int 5)) (.int 32) (.global 0) (.ptr (.int 32)) none, .void, none, 0, false⟩,
    ⟨some "r", .call "writer" [], .int 32, none, 0, false⟩,
    ⟨none, .ret (some (.int 32, .inst 1)), .void, none, 0, false⟩]

/-- The module of the writer. -/
def writerContext : Context :=
  ⟨⟨none, [], [⟨"g", false, .int 32, .scalar (.int 0)⟩], [], [writer]⟩, .default, .default, true⟩

namespace State

/-- The writer before its call. -/
def writerState : State :=
  (State.ofCall Run.initial.restart 0 writer (.ofSeeds .empty) none).step writerContext (descent writerContext 0) 0

theorem writerState_callsAt : writerState.frame.function.CallsAt writerContext.module 1
    ⟨some "r", .call "writer" [], .int 32, none, 0, false⟩ "writer" [] 0 := by
  have h₀ : (State.ofCall Run.initial.restart 0 writer (.ofSeeds .empty) none).Reachable writerContext 0 :=
    .root Run.initial (.ofSeeds .empty) rfl
  unfold writerState
  rw [(h₀.frame_step (by decide)).2]
  exact ⟨by decide, rfl, rfl, by decide, by decide⟩

/-- The writer calls itself, and its global keeps what is known of it. -/
theorem refused_call_forgets_nothing_recursive :
    writerState.run.isActive 0 = true ∧
    (writerState.transfer writerContext (descent writerContext 0) 1
      ⟨some "r", .call "writer" [], .int 32, none, 0, false⟩).1.bounds = writerState.bounds :=
  ⟨by decide,
    (refused_call_forgets_nothing (descent writerContext 0) writerState_callsAt rfl (.inl (by decide))).2.1⟩

/-- The global may be written by the call, and an opaque call would forget it; it is known
as before. -/
theorem written_global_outlasts_recursion :
    writerState.frame.function.CallsAt writerContext.module 1
      ⟨some "r", .call "writer" [], .int 32, none, 0, false⟩ "writer" [] 0 ∧
    writerState.run.isActive 0 = true ∧
    (writerState.clobber writerContext.module []).bounds.get? (.global 0) = none ∧
    (writerState.transfer writerContext (descent writerContext 0) 1
      ⟨some "r", .call "writer" [], .int 32, none, 0, false⟩).1.bounds.get? (.global 0) = some ⟨5.0, 5.0⟩ :=
  ⟨writerState_callsAt, by decide, by decide, by decide⟩

end State

end RangedIR
