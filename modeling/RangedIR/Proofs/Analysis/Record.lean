/-
RangedIR.Proofs.Analysis.Record — what instructions leave alone in a frame.

Most instructions change what is known and which keys are memory. The function, the ends of
its blocks, the values returned and the places of addresses are another matter: a return adds
a value, a view or a part enters a place, and no other instruction touches them.
-/
import RangedIR.Proofs.Analysis.Activations

namespace RangedIR

/-! ## 1. Unions -/

/-- What a write leaves in a union. -/
def UnionState.written (offset : Nat) : Option ScalarKind → Option Bound → UnionState
  | some kind, some value => .typed kind offset value
  | _, _ => .untyped

theorem AliasTable.find?_recordWrite (t : AliasTable) (addr : ValueKey) (kind : Option ScalarKind) (value : Option Bound)
    (root : ValueKey) : (t.recordWrite addr kind value).unions.find? root =
      if (t.locate addr).1 = root then (t.unions.find? root).map fun _ => .written (t.locate addr).2 kind value
      else t.unions.find? root := by
  have hstate : (t.recordWrite addr kind value).unions = if t.unions.contains (t.locate addr).1 then
      t.unions.insert (t.locate addr).1 (.written (t.locate addr).2 kind value) else t.unions := by
    unfold recordWrite
    dsimp only
    split_ifs <;> cases kind <;> cases value <;> rfl
  rw [hstate]
  split_ifs with hunion hroot hroot
  · obtain ⟨state, hfind⟩ := Option.isSome_iff_exists.mp hunion
    rw [Table.find?_insert, if_pos hroot, ← hroot, hfind]
    rfl
  · rw [Table.find?_insert, if_neg hroot]
  · rw [Table.contains_eq, Option.isSome_iff_ne_none, ne_eq, not_not] at hunion
    rw [← hroot, hunion]
    rfl
  · rfl

theorem AliasTable.mem_keys_registerView (t : AliasTable) (view target root : ValueKey) :
    root ∈ (t.registerView view target).unions.keys ↔ root = (t.locate target).1 ∨ root ∈ t.unions.keys := by
  unfold registerView
  dsimp only
  simp only [Table.mem_keys]
  split_ifs with hcontains
  · exact ⟨Or.inr, fun h => h.elim (fun heq => heq ▸ hcontains) fun h => h⟩
  · rw [Table.contains_eq, Table.find?_insert]
    split_ifs with heq
    · exact ⟨fun _ => Or.inl heq.symm, fun _ => rfl⟩
    · exact ⟨Or.inr, fun h => h.elim (fun h => absurd h.symm heq) fun h => h⟩

/-! ## 2. Records -/

@[simp] theorem Frame.record_addMemory (f : Frame) (key : ValueKey) : (f.addMemory key).record = f.record := by
  rw [addMemory_eq]
  rfl

namespace State

theorem record_restore (s : State) (m : Module) (mem : MemoryState) :
    (s.restore m mem).frame.record = s.frame.record :=
  congrArg (fun roots => { s.frame.record with unionRoots := roots }) (Table.keys_mapValues _ _)

theorem record_enterBlock (s : State) (m : Module) (b : BlockId) : (s.enterBlock m b).frame.record = s.frame.record := by
  unfold enterBlock
  split
  · exact record_restore s m _
  · rfl

/-! ## 3. Instructions -/

/-- A key that a store through an address forgets if it is memory, given its object. -/
def mayOverlap (s : State) (ptr : Operand) (addr key : ValueKey) (keyRoot : Option ValueKey) : Bool :=
  let root := s.frame.addressRoot ptr
  key != s.frame.aliases.slot addr &&
    match root, keyRoot with
    | some r, some kr => kr == r && !(s.isExact root addr && s.isExact root key)
    | _, _ => true

theorem bounds_forgetOverlaps (s : State) (m : Module) (ptr : Operand) (addr : ValueKey) :
    (s.forgetOverlaps m ptr addr).bounds = s.frame.forgetWhere m s.bounds (s.mayOverlap ptr addr) := by
  have hinvalidate : ∀ (t : State) (root : Option ValueKey), (t.invalidate root).bounds = t.bounds := by
    intro t root
    cases root <;> rfl
  unfold forgetOverlaps
  dsimp only
  split_ifs
  · rfl
  · exact hinvalidate _ _

/-- A view of an address enters a place. -/
theorem record_view (s : State) (i : InstId) (value : Operand) (src dst : Ty) :
    (s.view i value src dst).1.frame.record = s.frame.record ∨
      src.isPointer = true ∧ ∃ target, s.frame.key? value = some target ∧
        (s.view i value src dst).1.frame.record =
          (s.withAliases (·.registerView (.inst s.frame.id i) target)).frame.record := by
  unfold view
  split_ifs with hsrc
  · cases hkey : s.frame.key? value with
    | none => exact Or.inl rfl
    | some target => exact Or.inr ⟨hsrc, target, rfl, Frame.record_addMemory _ _⟩
  · left
    split
    · rfl
    · split
      · split_ifs <;> simp
      · simp

/-- A part of an object enters a place if its offset is known. -/
theorem record_elementPtr (s : State) (layout : DataLayout) (i : InstId) (ty source : Ty) (base : Operand)
    (indices : List (Ty × Operand)) :
    (s.elementPtr layout i ty source base indices).1.frame.record = s.frame.record ∨
      ∃ target bits, s.frame.key? base = some target ∧ layout.elementOffset source indices = some bits ∧
        (s.elementPtr layout i ty source base indices).1.frame.record =
          (s.withAliases (·.registerField (.inst s.frame.id i) target bits)).frame.record := by
  unfold elementPtr
  cases hkey : s.frame.key? base with
  | none => exact Or.inl rfl
  | some target =>
    dsimp only
    split
    · exact Or.inl rfl
    · split
      · next bits hbits =>
        right
        refine ⟨target, bits, rfl, hbits, ?_⟩
        have hadd : (({ s with frame := s.frame.addMemory (.inst s.frame.id i) } : State).withAliases
            (·.registerField (.inst s.frame.id i) target bits)).frame.record =
            (s.withAliases (·.registerField (.inst s.frame.id i) target bits)).frame.record := by
          unfold withAliases
          dsimp only
          rw [Frame.addMemory_eq]
          rfl
        split_ifs <;> exact hadd
      · split_ifs <;> exact Or.inl (Frame.record_addMemory _ _)

/-- Instructions that are no returns, views or parts leave the record alone. -/
theorem record_transfer (s : State) (ctx : Context) (descend : Descent) (i : InstId) {inst : Inst}
    (hret : ∀ v, inst.kind ≠ .ret v) (haddress : inst.kind.isAddress = false) :
    (s.transfer ctx descend i inst).1.frame.record = s.frame.record := by
  refine Changes.record (changes_transfer (p := .still) descend ⟨trivial, fun v hv => absurd hv (hret v), ?_, ?_, ?_⟩) id id
  · exact fun _ _ => ⟨trivial, fun _ => trivial, trivial, trivial⟩
  · exact fun h => absurd (h.symm.trans haddress) (by simp)
  · exact fun _ _ _ _ _ _ => ⟨trivial, fun _ => ⟨trivial, trivial⟩⟩

/-- Every instruction may make its changes where all are allowed. -/
theorem changes_all (s : State) (ctx : Context) (descend : Descent) (i : InstId) {inst : Inst} {p : Licence}
    (hp : p = { Licence.all with returns := p.returns }) (hret : ∀ v, inst.kind = .ret v → p.returns) :
    Changes p s (s.transfer ctx descend i inst).1 := by
  rw [hp] at hret ⊢
  exact changes_transfer descend ⟨trivial, hret, fun _ _ => ⟨trivial, fun _ => trivial, trivial, trivial⟩,
    fun _ => ⟨trivial, trivial, fun _ _ _ _ => trivial⟩, fun _ _ _ _ _ _ => ⟨trivial, fun _ => ⟨trivial, trivial⟩⟩⟩

/-- The body of a frame changes at returns only. -/
theorem body_transfer (s : State) (ctx : Context) (descend : Descent) (i : InstId) {inst : Inst}
    (hret : ∀ v, inst.kind ≠ .ret v) : (s.transfer ctx descend i inst).1.frame.body = s.frame.body :=
  Changes.body (p := { Licence.all with returns := False }) (changes_all s ctx descend i rfl hret) id

/-- An instruction is looked at in one function. -/
theorem id_transfer (s : State) (ctx : Context) (descend : Descent) (i : InstId) (inst : Inst) :
    (s.transfer ctx descend i inst).1.frame.id = s.frame.id ∧
      (s.transfer ctx descend i inst).1.frame.function = s.frame.function :=
  Changes.function (p := .all) (changes_all s ctx descend i rfl fun _ _ => trivial)

/-- What an instruction does to the record: a view or a part whose offset is known enters a
place; others change the body at most. -/
theorem record_transfer_cases (s : State) (ctx : Context) (descend : Descent) (i : InstId) (inst : Inst) :
    (∃ body : Frame.Body, body.id = s.frame.id ∧ body.function = s.frame.function ∧
      (s.transfer ctx descend i inst).1.frame.record = { s.frame.record with body := body }) ∨
    (∃ v src target, inst.kind = .view v src ∧ src.isPointer = true ∧ s.frame.key? v = some target ∧
      (s.transfer ctx descend i inst).1.frame.record =
        (s.withAliases (·.registerView (.inst s.frame.id i) target)).frame.record) ∨
    ∃ inbounds source base baseTy indices target bits, inst.kind = .elementPtr inbounds source base baseTy indices ∧
      s.frame.key? base = some target ∧ ctx.layout.elementOffset source indices = some bits ∧
      (s.transfer ctx descend i inst).1.frame.record =
        (s.withAliases (·.registerField (.inst s.frame.id i) target bits)).frame.record := by
  by_cases hret : ∃ v, inst.kind = .ret v
  · obtain ⟨v, hv⟩ := hret
    unfold transfer
    rw [hv]
    exact Or.inl ⟨_, rfl, rfl, rfl⟩
  · cases haddress : inst.kind.isAddress with
    | false => exact Or.inl ⟨s.frame.body, rfl, rfl, record_transfer s ctx descend i (not_exists.mp hret) haddress⟩
    | true =>
      unfold transfer
      cases hkind : inst.kind with
      | view v src =>
        rcases record_view s i v src inst.ty with h | ⟨hsrc, target, htarget, h⟩
        · exact Or.inl ⟨s.frame.body, rfl, rfl, h⟩
        · exact Or.inr (Or.inl ⟨v, src, target, rfl, hsrc, htarget, h⟩)
      | elementPtr inbounds source base baseTy indices =>
        rcases record_elementPtr s ctx.layout i inst.ty source base indices with h | ⟨target, bits, htarget, hbits, h⟩
        · exact Or.inl ⟨s.frame.body, rfl, rfl, h⟩
        · exact Or.inr (Or.inr ⟨inbounds, source, base, baseTy, indices, target, bits, rfl, htarget, hbits, h⟩)
      | _ => simp [hkind, InstKind.isAddress] at haddress

/-! ## 4. States that are reached -/

/-- What holds of the records of functions that are begun, whatever else becomes of their
bodies, and is kept by instructions, holds of every record that is reached. -/
theorem Reachable.record_induction {ctx : Context} {P : Frame.Record → Prop}
    (hstart : ∀ (c : FuncId) (f : Function), P (Frame.start c f).record)
    (hbody : ∀ {r : Frame.Record} {body : Frame.Body}, body.id = r.body.id → body.function = r.body.function →
      P r → P { r with body := body })
    (htransfer : ∀ {s : State} (descend : Descent) {i : InstId} {inst : Inst}, i ∈ s.frame.function.layout →
      s.frame.function.inst? i = some inst → P s.frame.record → P (s.transfer ctx descend i inst).1.frame.record)
    {s : State} {depth : Nat} (h : s.Reachable ctx depth) : P s.frame.record := by
  induction h with
  | root run bounds _ => exact hstart _ _
  | @enter _ s b _ ih =>
    rw [record_enterBlock]
    exact ih
  | tick _ ih => exact ih
  | @step depth s i _ hi ih =>
    unfold State.step
    split
    next => exact ih
    next inst hinst =>
      have hkept := htransfer (descent ctx depth) hi hinst ih
      dsimp only
      split <;> exact hkept
  | @close _ s b _ ih =>
    exact @hbody s.frame.record (s.perform ctx (descent ctx _) (.close b)).frame.body rfl rfl ih
  | call _ _ _ _ _ => exact hstart _ _

end State

end RangedIR
