/-
RangedIR.Proofs.Analysis.Loops — what the analysis knows about cells at the start of a block.

Blocks are taken in the order in which they stand, so at the start of a block the ends
of the blocks in front of it are known and the others are latches. What is known about
a cell there is known at the end of every earlier predecessor; and if there are
latches, they are not reached around the block and their loop does not write the cell.
-/
import RangedIR.Proofs.Analysis.CellAnalysis
import RangedIR.Proofs.Analysis.LoopEffects

namespace RangedIR

open Number

/-! ## 1. Ends of blocks -/

namespace State

variable {f : Function} {id : FuncId} {seeds : SeedTable} {s : State} {ctx : Context} {descend : Descent}

theorem exits_performAll (hf : f.isDirectMemory = true) (hs : Tidy f id seeds s) {l : List Action}
    (hl : ∀ i, .visit i ∈ l → i ∈ f.layout) (hclose : ∀ b, .close b ∉ l) :
    (performAll ctx descend l s).frame.exits = s.frame.exits := by
  refine (performAll_induction (P := fun t => Tidy f id seeds t ∧ t.frame.exits = s.frame.exits) ?_ ⟨hs, rfl⟩).2
  rintro t ⟨ht, hexits⟩ a ha
  refine ⟨tidy_perform hf ht fun i hi => hl i (hi ▸ ha), ?_⟩
  cases a with
  | enter b => exact (frame_enterBlock t ctx.module b).1.trans hexits
  | close b => exact absurd ha (hclose b)
  | visit i =>
    obtain ⟨inst, hi, -⟩ := f.admitted_of_mem hf (hl i ha)
    exact (visited_perform hf ht ctx descend (hl i ha) hi).exits.trans hexits

/-- The end of a block. -/
theorem exits_upTo (hf : f.isDirectMemory = true) (hs : Begins f id seeds s) :
    ∀ b ≤ f.blocks.length, ∀ p,
      (performAll ctx descend (f.upTo b) s).frame.exits.find? p =
        if p < b then
          (f.blocks[p]?).map fun block =>
            let t := performAll ctx descend (f.before p block.insts) s
            t.frame.snapshot ctx.module t.bounds
        else none
  | 0, _, p => by
    rw [if_neg (Nat.not_lt_zero p)]
    change s.frame.exits.find? p = none
    rw [hs.exits]
    rfl
  | b + 1, hb, p => by
    have hblock : f.blocks[b]? = some f.blocks[b] := List.getElem?_eq_getElem hb
    obtain ⟨tail, htail⟩ := f.script_eq_before hblock
      (show f.blocks[b].insts = f.blocks[b].insts ++ [] from (List.append_nil _).symm)
    have hupTo : ∃ r, f.script = f.upTo b ++ r := by
      rw [htail, Function.before, List.append_assoc]
      exact ⟨_, rfl⟩
    obtain ⟨r, hr⟩ := hupTo
    have hexits : (performAll ctx descend (f.before b f.blocks[b].insts) s).frame.exits =
        (performAll ctx descend (f.upTo b) s).frame.exits := by
      rw [Function.before, performAll_append]
      refine exits_performAll hf (tidy_at hf hs hr) ?_ (by simp)
      intro i hi
      refine f.mem_layout_of_visit ?_
      rw [htail, Function.before]
      simp only [List.append_assoc, List.mem_append]
      exact Or.inr (Or.inl hi)
    rw [Function.upTo_succ hblock, performAll_append, performAll_cons, performAll_nil]
    change (Table.insert _ b _).find? p = _
    rw [Table.find?_insert, hexits, exits_upTo hf hs b (Nat.le_of_succ_le hb) p]
    by_cases hpb : b = p
    · subst hpb
      rw [if_pos rfl, if_pos (Nat.lt_succ_self b), hblock]
      rfl
    · by_cases hlt : p < b
      · rw [if_neg hpb, if_pos hlt, if_pos (Nat.lt_succ_of_lt hlt)]
      · rw [if_neg hpb, if_neg hlt,
          if_neg fun h => hpb (le_antisymm (not_lt.mp hlt) (Nat.le_of_lt_succ h))]

end State

/-! ## 2. Loops -/

namespace Function

/-- The blocks that lead to a block and do not stand in front of it. -/
def latches (f : Function) (h : BlockId) : List BlockId :=
  (f.predecessors[h]?.getD []).filter fun p => h ≤ p

/-- The loop of a block: the latches, the block, and what leads to a latch without
passing the block. -/
def loop (f : Function) (h : BlockId) : List BlockId :=
  visitBlocks (fun b => f.predecessors[b]?.getD []) (fun _ => true)
    ((f.latches h).length + f.predecessors.flatten.length) (f.latches h) [h]

theorem loop_closed (f : Function) (h : BlockId) :
    (∀ p ∈ f.latches h, p ∈ f.loop h) ∧
      ∀ b ∈ f.loop h, b ≠ h → ∀ p ∈ f.predecessors[b]?.getD [], p ∈ f.loop h :=
  f.backward_closed h (f.latches h)

/-- If a block of a loop is reached around its header, so is a latch. -/
theorem latch_of_reached {f : Function} {h b : BlockId} (hb : b ∈ f.loop h) (hne : b ≠ h)
    (hreached : f.Reached (some h) b) : ∃ p ∈ f.latches h, f.Reached (some h) p := by
  have hsub := backward_subset
    (S := fun b => b ≠ h ∧ (f.Reached (some h) b → ∃ p ∈ f.latches h, f.Reached (some h) p))
    (fun p hp hnew => ⟨hnew, fun hr => ⟨p, hp, hr⟩⟩) (by
      intro a ha p hp hnew
      refine ⟨hnew, fun hreach => ha.2 ?_⟩
      obtain ⟨-, hlt, hsucc⟩ := mem_predecessors.mp hp
      exact hreach.step hsucc hlt (by simpa using ha.1)) hb
  rcases hsub with heq | hS
  · exact absurd heq hne
  · exact hS.2 hreached

/-- The loop of a block is entered there only, and does not write a cell. -/
structure LoopKeeps (f : Function) (h : BlockId) (a : InstId) : Prop where
  latches : ∀ p ∈ f.latches h, ¬ f.Reached (some h) p
  stores : ∀ b ∈ f.loop h, ∀ block, f.blocks[b]? = some block → ∀ i ∈ block.insts,
    ∀ v ty ptrTy align, f.kind? i ≠ some (.store v ty (.inst a) ptrTy align)

end Function

/-! ## 3. Starts of blocks -/

namespace State

variable {f : Function} {id : FuncId} {seeds : SeedTable} {s : State} {ctx : Context} {descend : Descent}

/-- What a loop with known effects does not write. -/
theorem loopKeeps_of_effects (hs : Tidy f id seeds s) {m : Module} {h : BlockId} {e : Effects}
    (heffects : (s.frame.loopEffects m h (f.latches h)).join = some e) {a : InstId} {bits : Nat}
    (ha : f.cellBits? (.inst a) = some bits) (hhits : e.hits m (.inst id a) = false) : f.LoopKeeps h a := by
  have hlatches : f.latches h ⊆ s.frame.function.predecessors[h]?.getD [] := by
    rw [hs.function]
    exact List.filter_subset_self _
  obtain ⟨written, globals, hwritten, -, heq⟩ :=
    @Frame.loopEffects_eq s.frame m h (f.latches h) (by rw [hs.predecessors, hs.function]) hlatches
  rw [Option.join_eq_some_iff, heq] at heffects
  split_ifs at heffects with haround <;> cases heffects
  rw [hs.function] at hwritten haround hlatches
  refine ⟨fun p hp hreach => haround (List.any_eq_true.mpr ⟨p, hp, ?_⟩), ?_⟩
  · rw [List.contains_iff_mem]
    exact Function.mem_reachableBlocks.mpr hreach
  · intro b hb block hblock i hi v ty ptrTy align hk
    have hop := (hwritten (.inst a)).mpr
      ⟨_, ⟨b, (Function.mem_backward hlatches).mp hb, block, i, hblock, hi, hk⟩, .store v ty _ ptrTy align⟩
    have hroot := Option.join_eq_some_iff.mp (hs.addressRoot_cell ha)
    have hmem : some (.inst id a) ∈ written.filterMap s.frame.root? := List.mem_filterMap.mpr ⟨_, hop, hroot⟩
    rw [Effects.hits, Bool.or_eq_false_iff, List.contains_eq_mem, decide_eq_false_iff_not] at hhits
    exact hhits.1 (List.mem_filterMap.mpr ⟨_, hmem, rfl⟩)

/-- What a frame knows at the start of a block, split into what came from the ends of
earlier blocks and what a loop may change. -/
theorem find?_entryState {m : Module} {b : BlockId} {mem : MemoryState} (h : s.entryState m b = some mem)
    {key : ValueKey} {j : Bound} (hj : mem.slots.find? key = some j) :
    let preds := s.frame.predecessors[b]?.getD []
    let latches := preds.filter fun p => !s.frame.exits.contains p
    (∀ p ∈ preds, ∀ e, s.frame.exits.find? p = some e →
        ∃ j', e.slots.find? key = some j' ∧ ∀ v, j'.Holds v → j.Holds v) ∧
      ((∀ p ∈ preds, s.frame.exits.find? p = none) → b = 0 ∧
        (s.frame.snapshot m s.bounds).slots.find? key = some j) ∧
      (latches ≠ [] → ∃ e, (s.frame.loopEffects m b latches).join = some e ∧
        ∃ r, s.frame.keyRoot key = some r ∧ e.hits m r = false) := by
  intro preds latches
  obtain ⟨hfind, heffects⟩ := of_entryState_some h hj
  refine ⟨?_, ?_, heffects⟩
  · intro p hp e he
    have hmem : e ∈ preds.filterMap s.frame.exits.find? := List.mem_filterMap.mpr ⟨p, hp, he⟩
    cases hl : preds.filterMap s.frame.exits.find? with
    | nil =>
      rw [hl] at hmem
      cases hmem
    | cons x rest =>
      rw [hl] at hfind hmem
      exact MemoryState.find?_joinAll rfl hfind hmem
  · intro hnone
    have hnil : preds.filterMap s.frame.exits.find? = [] := List.filterMap_eq_nil_iff.mpr hnone
    rw [hnil, MemoryState.joinAll, Option.getD_none] at hfind
    split_ifs at hfind with hb
    · exact ⟨hb, hfind⟩
    · cases hfind

section Entry

variable {b : BlockId} {a : InstId} {bits : Nat} {j : Bound}

theorem exits_contains (hf : f.isDirectMemory = true) (hs : Begins f id seeds s) (hb : b < f.blocks.length)
    {p : BlockId} (hp : p < f.blocks.length) :
    (performAll ctx descend (f.upTo b) s).frame.exits.contains p = decide (p < b) := by
  rw [Table.contains_eq, exits_upTo hf hs b hb.le p, List.getElem?_eq_getElem hp]
  by_cases h : p < b <;> simp [h]

theorem prefix_upTo (hb : b < f.blocks.length) : ∃ r, f.script = f.upTo b ++ r := by
  obtain ⟨tail, htail⟩ := f.script_eq_before (List.getElem?_eq_getElem hb)
    (show f.blocks[b].insts = [] ++ f.blocks[b].insts from (List.nil_append _).symm)
  rw [htail, Function.before, List.append_assoc]
  exact ⟨_, rfl⟩

theorem performAll_before_nil : performAll ctx descend (f.before b []) s =
    (performAll ctx descend (f.upTo b) s).enterBlock ctx.module b := by
  rw [Function.before, performAll_append]
  rfl

/-- Where a block has latches, what is known about a cell at its start is not changed by
its loop. -/
theorem loopKeeps_of_entry (hf : f.isDirectMemory = true) (hs : Begins f id seeds s) (hb : b < f.blocks.length)
    (ha : f.cellBits? (.inst a) = some bits)
    (hj : (performAll ctx descend (f.before b []) s).bounds.get? (.inst id a) = some j)
    (hlatches : f.latches b ≠ []) : f.LoopKeeps b a := by
  obtain ⟨r, hr⟩ := prefix_upTo hb
  have ht : Tidy f id seeds (performAll ctx descend (f.upTo b) s) := tidy_at hf hs hr
  have hfilter : ((f.predecessors[b]?.getD []).filter fun p =>
      !(performAll ctx descend (f.upTo b) s).frame.exits.contains p) = f.latches b := by
    refine List.filter_congr fun p hp => ?_
    rw [exits_contains hf hs hb (Function.mem_predecessors.mp hp).1, ← decide_not]
    simp
  rw [performAll_before_nil] at hj
  rcases get?_enterBlock_cell ht ha hj with ⟨hnone, -⟩ | ⟨mem, hmem, hfind⟩
  · exfalso
    have hempty := (of_entryState_none hnone).1
    rw [ht.predecessors, hfilter] at hempty
    exact hlatches hempty
  · obtain ⟨-, -, heffects⟩ := find?_entryState hmem hfind
    rw [ht.predecessors, hfilter] at heffects
    obtain ⟨e, he, r, hroot, hhits⟩ := heffects hlatches
    rw [ht.keyRoot, Function.keyRoot_cell ha] at hroot
    cases hroot
    exact loopKeeps_of_effects ht he ha hhits

/-- What is known about a cell at the start of a block is known at the end of every
predecessor in front of it. -/
theorem exit_of_entry (hf : f.isDirectMemory = true) (hs : Begins f id seeds s) (hb : b < f.blocks.length)
    (ha : f.cellBits? (.inst a) = some bits)
    (hj : (performAll ctx descend (f.before b []) s).bounds.get? (.inst id a) = some j)
    {p : BlockId} (hp : b ∈ f.successors p) (hpb : p < b) {block : Block} (hblock : f.blocks[p]? = some block) :
    ∃ j', (performAll ctx descend (f.before p block.insts) s).bounds.get? (.inst id a) = some j' ∧
      ∀ v, j'.Holds v → j.Holds v := by
  obtain ⟨r, hr⟩ := prefix_upTo hb
  have ht : Tidy f id seeds (performAll ctx descend (f.upTo b) s) := tidy_at hf hs hr
  rw [performAll_before_nil] at hj
  rcases get?_enterBlock_cell ht ha hj with ⟨hnone, -⟩ | ⟨mem, hmem, hfind⟩
  · obtain ⟨-, rfl⟩ := of_entryState_none hnone
    exact absurd hpb (Nat.not_lt_zero p)
  · obtain ⟨hexits, -, -⟩ := find?_entryState hmem hfind
    have hlt : p < f.blocks.length := (List.getElem?_eq_some_iff.mp hblock).1
    obtain ⟨j', hj', hsub⟩ := hexits p (by rw [ht.predecessors]; exact Function.mem_predecessors.mpr ⟨hlt, hb, hp⟩) _
      (by rw [exits_upTo hf hs b hb.le p, if_pos hpb, hblock]; rfl)
    rw [Frame.find?_snapshot, Option.ite_none_right_eq_some] at hj'
    exact ⟨j', hj'.2, hsub⟩

/-- Nothing is known about cells at the start of the first block. -/
theorem get?_entry_first (hs : Begins f id seeds s)
    (ha : f.cellBits? (.inst a) = some bits) :
    (performAll ctx descend (f.before 0 []) s).bounds.get? (.inst id a) = none := by
  by_contra hsome
  obtain ⟨j, hj⟩ := Option.ne_none_iff_exists'.mp hsome
  rw [performAll_before_nil] at hj
  have hs0 : performAll ctx descend (f.upTo 0) s = s := rfl
  rw [hs0] at hj
  rcases get?_enterBlock_cell hs.tidy ha hj with ⟨-, hget⟩ | ⟨mem, hmem, hfind⟩
  · rw [hs.fresh] at hget
    cases hget
  · obtain ⟨-, hsnap, -⟩ := find?_entryState hmem hfind
    obtain ⟨-, hsnap⟩ := hsnap fun p _ => by rw [hs.exits]; rfl
    rw [Frame.find?_snapshot, Option.ite_none_right_eq_some, hs.fresh] at hsnap
    cases hsnap.2

end Entry

end State

end RangedIR
