/-
RangedIR.Proofs.Code.Retained — functions of which only some blocks are kept.

The blocks that are kept stay in their order and get the numbers from zero on; the
instructions of the other blocks are erased.
-/
import RangedIR.Proofs.Code.WellFormed

namespace RangedIR

/-! ## 1. Kept elements -/

section Kept

variable {α : Type} (keep : Nat → Bool)

/-- The elements whose places pass a test, for a list that starts at a place. -/
def keptFrom (l : List α) (start : Nat) : List α :=
  (l.zipIdx start).filterMap fun (a, i) => if keep i then some a else none

theorem keptFrom_cons (a : α) (l : List α) (start : Nat) :
    keptFrom keep (a :: l) start =
      if keep start then a :: keptFrom keep l (start + 1) else keptFrom keep l (start + 1) := by
  unfold keptFrom
  rw [List.zipIdx_cons, List.filterMap_cons]
  cases hk : keep start <;> simp [hk]

theorem keptFrom_sublist (l : List α) (start : Nat) : (keptFrom keep l start).Sublist l := by
  induction l generalizing start with
  | nil => exact List.nil_sublist _
  | cons a l ih =>
    rw [keptFrom_cons]
    split_ifs
    · exact (ih _).cons_cons a
    · exact (ih _).cons a

/-- A kept element stands behind the kept elements before it. -/
theorem getElem?_keptFrom {l : List α} {start n : Nat} (hn : n < l.length) (hkeep : keep (start + n) = true) :
    (keptFrom keep l start)[(List.range' start n).countP keep]? = l[n]? := by
  induction l generalizing start n with
  | nil => cases hn
  | cons a l ih =>
    rw [keptFrom_cons]
    cases n with
    | zero =>
      rw [Nat.add_zero] at hkeep
      simp [hkeep]
    | succ n =>
      have hrec := @ih (start + 1) n (by simpa using hn) (by rw [← hkeep]; congr 1; omega)
      rw [List.range'_succ, List.countP_cons, List.getElem?_cons_succ]
      cases hk : keep start <;> simpa using hrec

/-- Every element that remains was kept. -/
theorem exists_of_keptFrom {l : List α} {start m : Nat} {a : α} (h : (keptFrom keep l start)[m]? = some a) :
    ∃ n < l.length, keep (start + n) = true ∧ (List.range' start n).countP keep = m ∧ l[n]? = some a := by
  induction l generalizing start m with
  | nil => cases h
  | cons x l ih =>
    rw [keptFrom_cons] at h
    cases hk : keep start with
    | false =>
      rw [hk, if_neg Bool.false_ne_true] at h
      obtain ⟨n, hn, hkeep, hm, ha⟩ := ih h
      refine ⟨n + 1, by simpa using hn, by rw [← hkeep]; congr 1; omega, ?_, by simpa using ha⟩
      rw [List.range'_succ, List.countP_cons, hk]
      simpa using hm
    | true =>
      rw [hk, if_pos rfl] at h
      cases m with
      | zero => exact ⟨0, by simp, by simpa using hk, by simp, by simpa using h⟩
      | succ m =>
        obtain ⟨n, hn, hkeep, hm, ha⟩ := ih (by simpa using h)
        refine ⟨n + 1, by simpa using hn, by rw [← hkeep]; congr 1; omega, ?_, by simpa using ha⟩
        rw [List.range'_succ, List.countP_cons, hk]
        simpa using hm

end Kept

/-! ## 2. New numbers -/

namespace Function

section Renumbering

variable {keep : List Bool} {count : Nat} {a b n : BlockId}

theorem isSome_renumbering : (renumbering keep count b).isSome = true ↔ b < count ∧ keep[b]? = some true := by
  unfold renumbering
  split_ifs with h <;> simpa using h

/-- The new number of a block is the number of kept blocks before it. -/
theorem countP_renumbering (h : renumbering keep count b = some n) :
    (List.range' 0 b).countP (fun i => (renumbering keep count i).isSome) = n := by
  have hb := isSome_renumbering.mp (by rw [h]; rfl)
  have hlen : b < keep.length := (List.getElem?_eq_some_iff.mp hb.2).1
  unfold renumbering at h
  split_ifs at h
  rw [Option.some.injEq] at h
  have htake : keep.take b = (List.range' 0 b).map fun i => keep[i]?.getD false := by
    refine List.ext_getElem? fun i => ?_
    rw [List.getElem?_take, List.getElem?_map]
    split_ifs with hi
    · simp [List.getElem?_range' hi, List.getElem?_eq_getElem (hi.trans hlen)]
    · simp [List.getElem?_eq_none (show (List.range' 0 b).length ≤ i by simpa using hi)]
  rw [← h, htake, List.count, List.countP_map]
  refine List.countP_congr fun i hi => ?_
  have hib : i < b := by simpa using (List.mem_range'_1.mp hi).2
  have hkeep := List.getElem?_eq_getElem (hib.trans hlen)
  rw [isSome_renumbering, Function.comp_apply, hkeep]
  simp [hib.trans hb.1]

theorem renumbering_unique (ha : renumbering keep count a = some n) (hb : renumbering keep count b = some n) : a = b := by
  -- Of two blocks the later one has the earlier one before it.
  have hlt : ∀ {a b n : BlockId}, renumbering keep count a = some n → renumbering keep count b = some n → ¬ a < b := by
    intro a b n ha hb h
    have hcount := countP_renumbering hb
    obtain ⟨k, rfl⟩ := Nat.exists_eq_add_of_lt h
    rw [Nat.add_assoc, ← List.range'_append_1, Nat.zero_add, List.countP_append, countP_renumbering ha,
      List.range'_succ, List.countP_cons, ha] at hcount
    simp at hcount
  rcases lt_trichotomy a b with h | h | h
  · exact absurd h (hlt ha hb)
  · exact h
  · exact absurd h (hlt hb ha)

end Renumbering

end Function

/-! ## 3. Instructions under new numbers -/

/-- An instruction in a function whose blocks have new numbers. -/
def InstKind.moved (number : BlockId → Option BlockId) (k : InstKind) : InstKind :=
  (k.filterIncoming fun b => (number b).isSome).mapBlocks fun b => (number b).getD b

namespace InstKind

variable {number : BlockId → Option BlockId} {k : InstKind}

@[simp] theorem isTerminator_moved : (k.moved number).isTerminator = k.isTerminator := by cases k <;> rfl

theorem successors_moved : (k.moved number).successors = k.successors.map fun b => (number b).getD b := by
  cases k <;> rfl

theorem operands_moved_subset : (k.moved number).operands ⊆ k.operands := by
  cases k with
  | phi incoming =>
    simp only [moved, filterIncoming, mapBlocks, operands, List.map_map]
    exact List.map_subset _ (List.filter_subset_self _)
  | _ => exact List.Subset.refl _

/-- Only phis and branches name blocks. -/
theorem moved_of_isPlain (hk : k.isPlain = true) : k.moved number = k := by
  cases k with
  | br | condBr | phi => cases hk
  | _ => rfl

theorem moved_eq_phi {incoming : List (Operand × BlockId)} (hk : k.moved number = .phi incoming) :
    ∃ old, k = .phi old ∧ incoming =
      (old.filter fun e => (number e.2).isSome).map fun e => (e.1, (number e.2).getD e.2) := by
  cases k with
  | phi old =>
    cases hk
    exact ⟨old, rfl, rfl⟩
  | _ => cases hk

end InstKind

/-! ## 4. Functions -/

namespace Function

variable {f : Function} {keep : List Bool} {u : InstId} {b n : BlockId}

/-- The instructions of the blocks that are not kept. -/
def dropped (f : Function) (keep : List Bool) : List InstId :=
  f.blocks.zipIdx.flatMap fun (b, i) => if (renumbering keep f.blocks.length i).isSome then [] else b.insts

theorem mem_dropped : u ∈ f.dropped keep ↔ ∃ b, f.StandsIn u b ∧ renumbering keep f.blocks.length b = none := by
  unfold dropped
  rw [List.mem_flatMap]
  constructor
  · rintro ⟨⟨block, i⟩, hi, hu⟩
    dsimp only at hu
    split_ifs at hu with hkeep
    · cases hu
    · exact ⟨i, ⟨block, List.mk_mem_zipIdx_iff_getElem?.mp hi, hu⟩, by simpa using hkeep⟩
  · rintro ⟨i, ⟨block, hi, hu⟩, hkeep⟩
    exact ⟨(block, i), List.mk_mem_zipIdx_iff_getElem?.mpr hi, by simpa [hkeep] using hu⟩

/-- What becomes of an instruction. -/
theorem inst?_retainBlocks (f : Function) (keep : List Bool) (u : InstId) :
    (f.retainBlocks keep).inst? u = (f.inst? u).map fun inst =>
      if u ∈ f.dropped keep then { inst with erased := true }
      else if inst.erased then inst
      else { inst with
        block := (renumbering keep f.blocks.length inst.block).getD inst.block
        kind := inst.kind.moved (renumbering keep f.blocks.length) } := by
  unfold retainBlocks inst?
  dsimp only
  rw [List.getElem?_mapIdx]
  congr 1
  funext inst
  rw [show (f.blocks.zipIdx.flatMap fun (b, i) =>
    if (renumbering keep f.blocks.length i).isSome then [] else b.insts) = f.dropped keep from rfl,
    List.contains_eq_mem]
  by_cases hu : u ∈ f.dropped keep
  · simp [hu]
  · simp only [hu, decide_false, Bool.false_eq_true, if_false]
    rfl

/-- A kept block has its new number. -/
theorem blocks_retainBlocks (hb : renumbering keep f.blocks.length b = some n) :
    (f.retainBlocks keep).blocks[n]? = f.blocks[b]? := by
  have hsome : (renumbering keep f.blocks.length (0 + b)).isSome = true := by rw [Nat.zero_add, hb]; rfl
  have hlt := (isSome_renumbering.mp (by rwa [Nat.zero_add] at hsome)).1
  have h := getElem?_keptFrom (fun i => (renumbering keep f.blocks.length i).isSome) hlt hsome
  rw [countP_renumbering hb] at h
  exact h

/-- Every block that is left was kept. -/
theorem blocks_retainBlocks_back {block : Block} (hn : (f.retainBlocks keep).blocks[n]? = some block) :
    ∃ b, renumbering keep f.blocks.length b = some n ∧ f.blocks[b]? = some block := by
  obtain ⟨b, -, hkeep, hcount, hblock⟩ :=
    exists_of_keptFrom (fun i => (renumbering keep f.blocks.length i).isSome) hn
  rw [Nat.zero_add] at hkeep
  obtain ⟨m, hm⟩ := Option.isSome_iff_exists.mp hkeep
  refine ⟨b, ?_, hblock⟩
  rw [hm, ← hcount, countP_renumbering hm]

theorem standsIn_retainBlocks_back (hu : (f.retainBlocks keep).StandsIn u n) :
    ∃ b, renumbering keep f.blocks.length b = some n ∧ f.StandsIn u b := by
  obtain ⟨block, hblock, hmem⟩ := hu
  obtain ⟨b, hb, hold⟩ := blocks_retainBlocks_back hblock
  exact ⟨b, hb, block, hold, hmem⟩

theorem sublist_retainBlocks (f : Function) (keep : List Bool) : (f.retainBlocks keep).blocks.Sublist f.blocks :=
  keptFrom_sublist (fun i => (renumbering keep f.blocks.length i).isSome) f.blocks 0

/-- What stands in a kept block is moved with it. -/
theorem Placed.inst?_retainBlocks (hf : f.Placed) (hu : f.StandsIn u b)
    (hb : renumbering keep f.blocks.length b = some n) {inst : Inst} (hinst : f.inst? u = some inst) :
    (f.retainBlocks keep).inst? u =
      some { inst with block := n, kind := inst.kind.moved (renumbering keep f.blocks.length) } := by
  obtain ⟨inst', hinst', hblock, herased⟩ := hf.placed hu
  rw [hinst] at hinst'
  cases hinst'
  have hkept : u ∉ f.dropped keep := by
    intro hdropped
    obtain ⟨c, hc, hnone⟩ := mem_dropped.mp hdropped
    rw [hf.standsIn_unique hc hu, hb] at hnone
    cases hnone
  rw [Function.inst?_retainBlocks, hinst, Option.map_some, if_neg hkept, herased, if_neg Bool.false_ne_true, hblock, hb,
    Option.getD_some]

theorem Placed.retainBlocks (hf : f.Placed) (keep : List Bool) : (f.retainBlocks keep).Placed where
  nodup := hf.nodup.sublist ((f.sublist_retainBlocks keep).flatMap _)
  placed {u n} hu := by
    obtain ⟨b, hb, hu⟩ := standsIn_retainBlocks_back hu
    obtain ⟨inst, hinst, -, herased⟩ := hf.placed hu
    exact ⟨_, hf.inst?_retainBlocks hu hb hinst, rfl, herased⟩

end Function

end RangedIR
