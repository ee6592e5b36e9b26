/-
RangedIR.Proofs.Analysis.LoopEffects — what the loop of a header may write.

A block is entered before the blocks that lead back to it. What they may write is collected
from the blocks of the loop, which are found by going backwards from the latches up to the
header. Every way round the loop stays in these blocks.
-/
import RangedIR.Analysis.Effects
import RangedIR.Proofs.Analysis.Roots
import RangedIR.Proofs.Code.Paths

namespace RangedIR

/-! ## 1. Effects -/

/-- A call goes to a function that may write: a defined one, or one that is not known as a
numeric routine. Bindings of source variables are no such calls. -/
structure Module.CallMayWrite (m : Module) (callee : String) : Prop where
  notDebug : Scope.isDebugName callee = false
  unknown : (m.functionNamed? callee).isSome = true ∨ Routine.ofName? callee = none

/-- The addresses that an instruction may write through. -/
inductive InstKind.WritesThrough (m : Module) : InstKind → Operand → Prop
  | store (value : Operand) (valueTy : Ty) (ptr : Operand) (ptrTy : Ty) (align : Option Nat) :
      WritesThrough m (.store value valueTy ptr ptrTy align) ptr
  | binding {callee : String} (pointee : Ty) (op : Operand) (rest : List (Ty × Operand)) :
      Scope.isDebugName callee = true → WritesThrough m (.call callee ((.ptr pointee, op) :: rest)) op
  | call {callee : String} {args : List (Ty × Operand)} {arg : Ty × Operand} : m.CallMayWrite callee → arg ∈ args →
      arg.1.isPointer = true → WritesThrough m (.call callee args) arg.2

/-- An instruction may write the globals. -/
inductive InstKind.WritesGlobals (m : Module) : InstKind → Prop
  | call {callee : String} (args : List (Ty × Operand)) : m.CallMayWrite callee → WritesGlobals m (.call callee args)

theorem Module.callWrites_iff {m : Module} {callee : String} : m.callWrites callee = true ↔ m.CallMayWrite callee := by
  unfold callWrites
  rw [Bool.and_eq_true, Bool.or_eq_true, Bool.not_eq_true', Option.isNone_iff_eq_none]
  exact ⟨fun h => ⟨h.1, h.2⟩, fun h => ⟨h.notDebug, h.unknown⟩⟩

namespace InstKind

variable {m : Module}

theorem writesGlobals_iff {k : InstKind} : k.writesGlobals m = true ↔ k.WritesGlobals m := by
  constructor
  · intro h
    cases k with
    | call callee args => exact .call args (Module.callWrites_iff.mp h)
    | _ => cases h
  · rintro ⟨args, hmay⟩
    exact Module.callWrites_iff.mpr hmay

theorem mem_written {k : InstKind} {op : Operand} : op ∈ k.written m ↔ k.WritesThrough m op := by
  constructor
  · intro h
    cases k with
    | store value valueTy ptr ptrTy align =>
      rw [List.mem_singleton.mp h]
      exact .store value valueTy ptr ptrTy align
    | call callee args =>
      simp only [written] at h
      split_ifs at h with hdebug hwrites
      · split at h
        · rw [List.mem_singleton.mp h]
          exact .binding _ _ _ hdebug
        · cases h
      · obtain ⟨arg, harg, rfl⟩ := List.mem_map.mp h
        obtain ⟨harg, hptr⟩ := List.mem_filter.mp harg
        exact .call (Module.callWrites_iff.mp hwrites) harg hptr
      · cases h
    | _ => cases h
  · intro h
    cases h with
    | store => exact List.mem_singleton_self _
    | binding pointee op rest hdebug =>
      simp only [written, hdebug, if_true]
      exact List.mem_singleton_self _
    | call hmay harg hptr =>
      simp only [written, hmay.notDebug, Module.callWrites_iff.mpr hmay, if_true, Bool.false_eq_true, if_false]
      exact List.mem_map.mpr ⟨_, List.mem_filter.mpr ⟨harg, hptr⟩, rfl⟩

end InstKind

/-- An object is among those that are written, or everything is. -/
def Effects.Covers (e : Effects) (object : Option ValueKey) : Prop :=
  e.everything = true ∨ ∃ r ∈ e.roots, object = some r

namespace Function

/-- The blocks from which one of the given blocks is reached backwards, up to a header. -/
def backward (f : Function) (h : BlockId) (latches : List BlockId) : List BlockId :=
  visitBlocks (fun b => f.predecessors[b]?.getD []) (fun _ => true)
    (latches.length + f.predecessors.flatten.length) latches [h]

theorem sum_length_getD (l : List (List BlockId)) :
    ∑ u ∈ Finset.range l.length, (l[u]?.getD []).length = l.flatten.length := by
  induction l with
  | nil => rfl
  | cons a rest ih =>
    rw [List.length_cons, Finset.sum_range_succ', List.flatten_cons, List.length_append, ← ih, add_comm]
    simp

theorem pending_predecessors (f : Function) (seen : List BlockId) :
    pending (fun b => f.predecessors[b]?.getD []) (Finset.range f.blocks.length) seen ≤
      f.predecessors.flatten.length := by
  unfold pending
  calc ∑ u ∈ Finset.range f.blocks.length with u ∉ seen, (f.predecessors[u]?.getD []).length
      ≤ ∑ u ∈ Finset.range f.blocks.length, (f.predecessors[u]?.getD []).length :=
        Finset.sum_le_sum_of_subset (Finset.filter_subset _ _)
    _ = f.predecessors.flatten.length := by
        rw [← f.length_predecessors, sum_length_getD]

/-- The search passes on from every block but the header. -/
theorem backward_closed (f : Function) (h : BlockId) (latches : List BlockId) :
    (∀ p ∈ latches, p ∈ f.backward h latches) ∧
      ∀ b ∈ f.backward h latches, b ≠ h → ∀ p ∈ f.predecessors[b]?.getD [], p ∈ f.backward h latches := by
  obtain ⟨hstack, hclosed⟩ := @visitBlocks_closed (fun b => f.predecessors[b]?.getD [])
    (fun _ => true) (Finset.range f.blocks.length) (by
      intro b _ hb
      have hlen : f.predecessors.length ≤ b := by
        rw [f.length_predecessors]
        exact not_lt.mp fun hlt => hb (Finset.mem_range.mpr hlt)
      simp [List.getElem?_eq_none hlen])
    (latches.length + f.predecessors.flatten.length) latches [h]
    (Nat.add_le_add_left (f.pending_predecessors [h]) _)
  exact ⟨fun p hp => hstack p hp rfl, fun b hb hne p hp => hclosed b hb (by simpa using hne) p hp rfl⟩

variable {f : Function} {latches : List BlockId}

/-- Besides the header, a set has all the blocks that are found if it has the latches and the
predecessors of its members. -/
theorem backward_subset {h : BlockId} {S : BlockId → Prop} (hlatches : ∀ p ∈ latches, p ≠ h → S p)
    (hstep : ∀ b, S b → ∀ p ∈ f.predecessors[b]?.getD [], p ≠ h → S p) {b : BlockId} (hb : b ∈ f.backward h latches) :
    b = h ∨ S b := by
  have hsub := @visitBlocks_subset (fun b => f.predecessors[b]?.getD []) (fun _ => true) S [h]
    (fun a ha p hp _ hnew => hstep a ha p hp (by simpa using hnew))
    (latches.length + f.predecessors.flatten.length) latches [h]
    (fun p hp _ hnew => hlatches p hp (by simpa using hnew)) (fun a ha => Or.inl ha) (List.Subset.refl _) b hb
  exact hsub.imp_left List.mem_singleton.mp

/-- A block lies in the loop of a header and its latches: it is the header, or a latch is
reached from it by a path on which the header does not stand. -/
def InLoop (f : Function) (h : BlockId) (latches : List BlockId) (b : BlockId) : Prop :=
  b = h ∨ ∃ l ∈ latches, ∃ path, f.Path b l path ∧ h ∉ path

/-- The search finds the loop. -/
theorem mem_backward {h b : BlockId}
    (hlatches : latches ⊆ f.predecessors[h]?.getD []) : b ∈ f.backward h latches ↔ f.InLoop h latches b := by
  obtain ⟨hall, hclosed⟩ := f.backward_closed h latches
  constructor
  · refine backward_subset (S := fun b => ∃ l ∈ latches, ∃ path, f.Path b l path ∧ h ∉ path)
      (fun p hp hne => ⟨p, hp, [p], .single p, by simpa using hne.symm⟩) ?_
    rintro b ⟨l, hl, path, hpath, havoid⟩ p hp hne
    obtain ⟨-, -, hsucc⟩ := mem_predecessors.mp hp
    exact ⟨l, hl, p :: path, .cons hsucc hpath, by simp [havoid, hne.symm]⟩
  · rintro (rfl | ⟨l, hl, path, hpath, havoid⟩)
    · exact mem_visitBlocks_of_seen _ _ _ List.mem_cons_self
    · have hlt : l < f.blocks.length := (mem_predecessors.mp (hlatches hl)).1
      -- from the latch backwards along the path
      induction hpath with
      | single l => exact hall l hl
      | @cons a next l rest hsucc htail ih =>
        rw [List.mem_cons, not_or] at havoid
        have hnext : next ≠ h := by
          rintro rfl
          exact havoid.2 htail.source_mem
        refine hclosed next (ih hl havoid.2 hlt) hnext a (mem_predecessors.mpr ?_)
        exact ⟨lt_of_mem_successors hsucc, htail.lt_of_source hlt, hsucc⟩

/-- An instruction of the given kind stands in a block. -/
def HasInst (f : Function) (b : BlockId) (k : InstKind) : Prop :=
  ∃ block i, f.blocks[b]? = some block ∧ i ∈ block.insts ∧ f.kind? i = some k

/-- An instruction of the given kind stands in the loop of a header and its latches. -/
def LoopHasInst (f : Function) (h : BlockId) (latches : List BlockId) (k : InstKind) : Prop :=
  ∃ b, f.InLoop h latches b ∧ f.HasInst b k

end Function

/-! ## 3. Loops -/

namespace Frame

variable {frame : Frame} {m : Module} {h : BlockId} {latches : List BlockId}

/-- The effects of a loop are those of the instructions in its blocks, unless a latch is reached
around the header. -/
theorem loopEffects_eq (hpreds : frame.predecessors = frame.function.predecessors)
    (hlatches : latches ⊆ frame.function.predecessors[h]?.getD []) : ∃ (written : List Operand) (globals : Bool),
      (∀ op, op ∈ written ↔ ∃ k, frame.function.LoopHasInst h latches k ∧ k.WritesThrough m op) ∧
      (globals = true ↔ ∃ k, frame.function.LoopHasInst h latches k ∧ k.WritesGlobals m) ∧
      frame.loopEffects m h latches =
        if latches.any (frame.function.reachableBlocks (some h)).contains then some none
        else if written.any fun op => (frame.root? op).isNone then none
        else some (some (.ofRoots (written.filterMap frame.root?) globals)) := by
  have hbody : frame.loopBody h latches = frame.function.backward h latches := by
    unfold loopBody Function.backward
    rw [hpreds]
  have hkinds : ∀ k, k ∈ ((frame.function.blocks.zipIdx.filter fun p => (frame.loopBody h latches).contains p.2).flatMap
      fun p => p.1.insts.filterMap frame.function.kind?) ↔ frame.function.LoopHasInst h latches k := by
    intro k
    simp only [List.mem_flatMap, List.mem_filter, List.mem_filterMap, Prod.exists, List.mem_zipIdx_iff_getElem?,
      List.contains_iff_mem, hbody, Function.mem_backward hlatches, Function.LoopHasInst, Function.HasInst]
    constructor
    · rintro ⟨block, b, ⟨hblock, hloop⟩, i, hi, hk⟩
      exact ⟨b, hloop, block, i, hblock, hi, hk⟩
    · rintro ⟨b, hloop, block, i, hblock, hi, hk⟩
      exact ⟨block, b, ⟨hblock, hloop⟩, i, hi, hk⟩
  refine ⟨_, _, fun op => ?_, ?_, rfl⟩
  · simp only [List.mem_flatMap, hkinds, InstKind.mem_written]
  · simp only [List.any_eq_true, hkinds, InstKind.writesGlobals_iff]

end Frame

end RangedIR
