/-
RangedIR.Proofs.Code.Paths — paths of control flow, and the search that finds them.

  §1 the search through blocks: it finds only what it can reach, and with enough fuel
     what it has found is closed under the next blocks;
  §2 predecessors are the blocks that lead to a block;
  §3 blocks reached from the first one around another: what the search computes, and
     the two ways in which a dominating block is met;
  §4 paths with the blocks on them.
-/
import Mathlib
import RangedIR.Code.Function

namespace RangedIR.Function

/-! ## 1. The search -/

section Search

variable {next : BlockId → List BlockId} {allowed : BlockId → Bool}

theorem mem_visitBlocks_of_seen {b : BlockId} :
    ∀ (fuel : Nat) (stack seen : List BlockId), b ∈ seen → b ∈ visitBlocks next allowed fuel stack seen
  | 0, _, _, h => h
  | _ + 1, [], _, h => h
  | fuel + 1, a :: stack, seen, h => by
    unfold visitBlocks
    split_ifs
    · exact mem_visitBlocks_of_seen fuel _ _ (List.mem_cons_of_mem _ h)
    · exact mem_visitBlocks_of_seen fuel _ _ h

/-- Everything found was seen before or is one of the new blocks that are closed under
the search: a set that holds the new blocks of the stack and the new blocks next to
its members holds all that is found. -/
theorem visitBlocks_subset {S : BlockId → Prop} {seen₀ : List BlockId}
    (hnext : ∀ a, S a → ∀ b ∈ next a, allowed b = true → b ∉ seen₀ → S b) :
    ∀ (fuel : Nat) (stack seen : List BlockId),
      (∀ a ∈ stack, allowed a = true → a ∉ seen₀ → S a) → (∀ a ∈ seen, a ∈ seen₀ ∨ S a) →
      seen₀ ⊆ seen → ∀ b ∈ visitBlocks next allowed fuel stack seen, b ∈ seen₀ ∨ S b
  | 0, _, _, _, hseen, _, b, hb => hseen b hb
  | _ + 1, [], _, _, hseen, _, b, hb => hseen b hb
  | fuel + 1, a :: stack, seen, hstack, hseen, hsub, b, hb => by
    unfold visitBlocks at hb
    split_ifs at hb with hnew
    · rw [Bool.and_eq_true, Bool.not_eq_true', List.contains_eq_mem, decide_eq_false_iff_not] at hnew
      have ha : S a := hstack a List.mem_cons_self hnew.1 fun h => hnew.2 (hsub h)
      refine visitBlocks_subset hnext fuel (next a ++ stack) (a :: seen) ?_ ?_ ?_ b hb
      · intro c hc
        rcases List.mem_append.mp hc with hc | hc
        · exact hnext a ha c hc
        · exact hstack c (List.mem_cons_of_mem _ hc)
      · intro c hc
        rcases List.mem_cons.mp hc with rfl | hc
        · exact Or.inr ha
        · exact hseen c hc
      · exact fun c hc => List.mem_cons_of_mem _ (hsub hc)
    · exact visitBlocks_subset hnext fuel stack seen
        (fun c hc => hstack c (List.mem_cons_of_mem _ hc)) hseen hsub b hb

/-- The blocks that are still to be put on the stack by blocks not yet seen. -/
def pending (next : BlockId → List BlockId) (U : Finset BlockId) (seen : List BlockId) : Nat :=
  ∑ u ∈ U with u ∉ seen, (next u).length

variable {U : Finset BlockId}

theorem pending_cons {seen : List BlockId} {b : BlockId} (hU : b ∉ U → next b = [])
    (hb : b ∉ seen) : (next b).length + pending next U (b :: seen) = pending next U seen := by
  unfold pending
  have hfilter : U.filter (fun u => u ∉ b :: seen) = (U.filter fun u => u ∉ seen).erase b := by
    ext u
    simp only [Finset.mem_filter, List.mem_cons, not_or, Finset.mem_erase]
    tauto
  rw [hfilter]
  by_cases hmem : b ∈ U
  · exact Finset.add_sum_erase _ (fun u => (next u).length) (Finset.mem_filter.mpr ⟨hmem, hb⟩)
  · rw [hU hmem, Finset.erase_eq_of_notMem (by simp [hmem])]
    simp

/-- With enough fuel the whole stack is gone through, and what was found is closed
under the next blocks. -/
theorem visitBlocks_closed (hU : ∀ b, allowed b = true → b ∉ U → next b = []) :
    ∀ (fuel : Nat) (stack seen : List BlockId), stack.length + pending next U seen ≤ fuel →
      (∀ a ∈ stack, allowed a = true → a ∈ visitBlocks next allowed fuel stack seen) ∧
      ∀ a ∈ visitBlocks next allowed fuel stack seen, a ∉ seen →
        ∀ b ∈ next a, allowed b = true → b ∈ visitBlocks next allowed fuel stack seen
  | 0, stack, seen, hfuel => by
    have : stack = [] := List.length_eq_zero_iff.mp (by omega)
    subst this
    exact ⟨by simp, fun a ha hn => absurd ha hn⟩
  | _ + 1, [], seen, _ => ⟨by simp, fun a ha hn => absurd ha hn⟩
  | fuel + 1, a :: stack, seen, hfuel => by
    rw [List.length_cons] at hfuel
    unfold visitBlocks
    split_ifs with hnew
    · rw [Bool.and_eq_true, Bool.not_eq_true', List.contains_eq_mem, decide_eq_false_iff_not] at hnew
      have hpend := pending_cons (hU a hnew.1) hnew.2
      obtain ⟨h1, h2⟩ := visitBlocks_closed hU fuel (next a ++ stack) (a :: seen)
        (by rw [List.length_append]; omega)
      refine ⟨?_, ?_⟩
      · intro c hc hallowed
        rcases List.mem_cons.mp hc with rfl | hc
        · exact mem_visitBlocks_of_seen _ _ _ List.mem_cons_self
        · exact h1 c (List.mem_append_right _ hc) hallowed
      · intro c hc hns b hb hallowed
        by_cases hca : c = a
        · subst hca
          exact h1 b (List.mem_append_left _ hb) hallowed
        · exact h2 c hc (by simp [hca, hns]) b hb hallowed
    · obtain ⟨h1, h2⟩ := visitBlocks_closed hU fuel stack seen (by omega)
      refine ⟨?_, h2⟩
      intro c hc hallowed
      rcases List.mem_cons.mp hc with rfl | hc
      · -- A block that is allowed and not entered has been seen.
        have hseen : c ∈ seen := by
          by_contra hns
          exact hnew (by simp [hallowed, hns])
        exact mem_visitBlocks_of_seen _ _ _ hseen
      · exact h1 c hc hallowed

/-- One round of the search, on the stack and the blocks already met. -/
def round (next : BlockId → List BlockId) (allowed : BlockId → Bool) :
    List BlockId × List BlockId → List BlockId × List BlockId
  | ([], seen) => ([], seen)
  | (b :: stack, seen) =>
    if allowed b && !seen.contains b then (next b ++ stack, b :: seen) else (stack, seen)

/-- With enough fuel the search goes on until the stack is empty. -/
theorem iterate_round (hU : ∀ b, allowed b = true → b ∉ U → next b = []) :
    ∀ (fuel : Nat) (stack seen : List BlockId), stack.length + pending next U seen ≤ fuel →
      (round next allowed)^[fuel] (stack, seen) = ([], visitBlocks next allowed fuel stack seen)
  | 0, stack, seen, hfuel => by
    have : stack = [] := List.length_eq_zero_iff.mp (by omega)
    subst this
    rfl
  | _ + 1, [], _, _ => Function.iterate_fixed rfl _
  | fuel + 1, a :: stack, seen, hfuel => by
    rw [List.length_cons] at hfuel
    rw [Function.iterate_succ_apply, round, visitBlocks]
    split_ifs with hnew
    · rw [Bool.and_eq_true, Bool.not_eq_true', List.contains_eq_mem, decide_eq_false_iff_not] at hnew
      have hpend := pending_cons (hU a hnew.1) hnew.2
      exact iterate_round hU fuel _ _ (by rw [List.length_append]; omega)
    · exact iterate_round hU fuel _ _ (by omega)

end Search

/-! ## 2. Predecessors -/

variable {f : Function} {a b : BlockId} {avoid : Option BlockId}

theorem mem_edges : (a, b) ∈ f.edges ↔ a < f.blocks.length ∧ b ∈ f.successors a := by
  unfold edges
  simp only [List.mem_flatMap, List.mem_range, List.mem_map, Prod.mk.injEq]
  constructor
  · rintro ⟨c, hc, d, hd, rfl, rfl⟩
    exact ⟨hc, hd⟩
  · rintro ⟨ha, hb⟩
    exact ⟨a, ha, b, hb, rfl, rfl⟩

theorem length_predecessors (f : Function) : f.predecessors.length = f.blocks.length := by
  simp [predecessors]

theorem mem_predecessors :
    a ∈ f.predecessors[b]?.getD [] ↔ a < f.blocks.length ∧ b < f.blocks.length ∧ b ∈ f.successors a := by
  unfold predecessors
  by_cases hb : b < f.blocks.length
  · simp only [List.getElem?_map, List.getElem?_range hb, Option.map_some, Option.getD_some,
      List.mem_filterMap, Prod.exists, Option.ite_none_right_eq_some, Option.some.injEq]
    constructor
    · rintro ⟨a', c, hmem, rfl, rfl⟩
      obtain ⟨h1, h2⟩ := mem_edges.mp hmem
      exact ⟨h1, hb, h2⟩
    · rintro ⟨h1, -, h2⟩
      exact ⟨a, b, mem_edges.mpr ⟨h1, h2⟩, rfl, rfl⟩
  · simp [hb]

theorem length_successors_le (f : Function) (b : BlockId) : (f.successors b).length ≤ 2 := by
  unfold successors
  cases h : (f.terminator? b).bind f.kind? with
  | none => simp
  | some k => cases k <;> simp [InstKind.successors]

theorem lt_of_mem_successors (h : b ∈ f.successors a) : a < f.blocks.length := by
  by_contra hlt
  have hnone : f.blocks[a]? = none := List.getElem?_eq_none (not_lt.mp hlt)
  simp [successors, terminator?, hnone] at h

/-! ## 3. Blocks reached around a block -/

/-- A path leads from the first block to a block without passing `avoid`. -/
inductive Reached (f : Function) (avoid : Option BlockId) : BlockId → Prop
  | entry : 0 < f.blocks.length → some 0 ≠ avoid → Reached f avoid 0
  | step {a b : BlockId} : Reached f avoid a → b ∈ f.successors a → b < f.blocks.length →
      some b ≠ avoid → Reached f avoid b

theorem Reached.lt (h : f.Reached avoid b) : b < f.blocks.length := by
  cases h with
  | entry h _ => exact h
  | step _ _ h _ => exact h

theorem Reached.ne (h : f.Reached avoid b) : some b ≠ avoid := by
  cases h with
  | entry _ h => exact h
  | step _ _ _ h => exact h

theorem successors_eq_nil (hb : b ∉ Finset.range f.blocks.length) : f.successors b = [] :=
  List.eq_nil_iff_forall_not_mem.mpr fun _ hc => hb (Finset.mem_range.mpr (lt_of_mem_successors hc))

/-- The fuel of the search from the first block is enough. -/
theorem pending_successors_le (f : Function) :
    [0].length + pending f.successors (Finset.range f.blocks.length) [] ≤ 2 * f.blocks.length + 1 := by
  have hbound : pending f.successors (Finset.range f.blocks.length) [] ≤ 2 * f.blocks.length := by
    unfold pending
    calc ∑ u ∈ Finset.range f.blocks.length with u ∉ [], (f.successors u).length
        ≤ ∑ u ∈ Finset.range f.blocks.length with u ∉ [], 2 :=
          Finset.sum_le_sum fun u _ => length_successors_le f u
      _ = 2 * f.blocks.length := by simp [mul_comm]
  rw [List.length_singleton]
  omega

/-- The search from the first block finds exactly the blocks that are reached. -/
theorem mem_reachableBlocks : b ∈ f.reachableBlocks avoid ↔ f.Reached avoid b := by
  unfold reachableBlocks
  constructor
  · intro h
    have hsub := @visitBlocks_subset f.successors (fun b => b < f.blocks.length && some b != avoid)
      (f.Reached avoid) []
    refine (hsub ?_ _ [0] [] ?_ (by simp) (by simp) b h).resolve_left (by simp)
    · intro a ha c hc hallowed _
      simp only [Bool.and_eq_true, decide_eq_true_eq, bne_iff_ne] at hallowed
      exact ha.step hc hallowed.1 hallowed.2
    · intro a ha hallowed _
      simp only [Bool.and_eq_true, decide_eq_true_eq, bne_iff_ne] at hallowed
      rcases List.mem_singleton.mp ha with rfl
      exact .entry hallowed.1 hallowed.2
  · intro h
    obtain ⟨hstack, hclosed⟩ := @visitBlocks_closed f.successors
      (fun b => b < f.blocks.length && some b != avoid) (Finset.range f.blocks.length) (fun _ _ => successors_eq_nil)
      (2 * f.blocks.length + 1) [0] [] f.pending_successors_le
    induction h with
    | entry h0 hne => exact hstack 0 (by simp) (by simp [h0, hne])
    | step _ hsucc hlt hne ih => exact hclosed _ ih (by simp) _ hsucc (by simp [hlt, hne])

theorem getElem?_reachable (f : Function) (avoid : Option BlockId) (b : BlockId) :
    (f.reachable avoid)[b]? = some true ↔ f.Reached avoid b := by
  unfold reachable
  rw [List.getElem?_map, ← mem_reachableBlocks]
  constructor
  · intro h
    obtain ⟨c, hc, hmem⟩ := Option.map_eq_some_iff.mp h
    obtain ⟨hlt, rfl⟩ := List.getElem?_eq_some_iff.mp hc
    simpa using hmem
  · intro h
    rw [List.getElem?_range (mem_reachableBlocks.mp h).lt]
    simpa using h

/-- The way to a block that cannot be reached around `d` passes `d`, and up to there it
passes nothing that the whole way does not pass. -/
theorem Reached.through {d : BlockId} (h : f.Reached avoid b) (hd : ¬ f.Reached (some d) b) : f.Reached avoid d := by
  induction h with
  | entry h0 hne =>
    have : d = 0 := by
      by_contra hd0
      exact hd (.entry h0 (by simpa using Ne.symm hd0))
    subst this
    exact .entry h0 hne
  | @step a b ha hsucc hlt hne ih =>
    by_cases hda : f.Reached (some d) a
    · have : b = d := by
        by_contra hbd
        exact hd (hda.step hsucc hlt (by simpa using hbd))
      subst this
      exact ha.step hsucc hlt hne
    · exact ih hda

/-- A block that is reached, but not around `d`, is reached through an edge into `d`
that ends a way around `d`, unless `d` is the first block. -/
theorem Reached.arrival {d : BlockId} (h : f.Reached none b)
    (hd : ¬ f.Reached (some d) b) (h0 : d ≠ 0) :
    ∃ a, f.Reached (some d) a ∧ d ∈ f.successors a := by
  induction h with
  | entry hlen _ => exact absurd (.entry hlen (by simpa using Ne.symm h0)) hd
  | @step a b ha hsucc hlt _ ih =>
    by_cases hda : f.Reached (some d) a
    · have : b = d := by
        by_contra hbd
        exact hd (hda.step hsucc hlt (by simpa using hbd))
      subst this
      exact ⟨a, hda, hsucc⟩
    · exact ih hda

/-! ## 4. Paths -/

/-- A path of control flow from one block to another, and the blocks on it. -/
inductive Path (f : Function) : BlockId → BlockId → List BlockId → Prop
  | single (b : BlockId) : Path f b b [b]
  | cons {a b c : BlockId} {rest : List BlockId} : b ∈ f.successors a → Path f b c rest → Path f a c (a :: rest)

namespace Path

variable {f : Function} {a b c : BlockId} {path : List BlockId}

theorem source_mem (h : f.Path a c path) : a ∈ path := by
  cases h <;> exact List.mem_cons_self

theorem snoc (h : f.Path a b path) (hsucc : c ∈ f.successors b) : f.Path a c (path ++ [c]) := by
  induction h with
  | single a => exact .cons hsucc (.single c)
  | cons hfirst _ ih => exact .cons hfirst (ih hsucc)

/-- A block on a path is the last one or leads on, so it exists if the last one does. -/
theorem lt_of_source (h : f.Path a c path) (hc : c < f.blocks.length) : a < f.blocks.length := by
  cases h with
  | single => exact hc
  | cons hsucc _ => exact lt_of_mem_successors hsucc

end Path

theorem Reached.path (hb : f.Reached avoid b) : ∃ path, f.Path 0 b path ∧ ∀ c ∈ path, some c ≠ avoid := by
  induction hb with
  | entry _ hne => exact ⟨[0], .single 0, by simpa using hne⟩
  | @step a b _ hsucc _ hne ih =>
    obtain ⟨path, hpath, havoid⟩ := ih
    refine ⟨path ++ [b], hpath.snoc hsucc, ?_⟩
    simpa [or_imp, forall_and] using ⟨havoid, hne⟩

theorem Path.reached {path : List BlockId}
    (hpath : f.Path a b path) (ha : f.Reached avoid a) (hb : b < f.blocks.length)
    (hpass : ∀ c ∈ path, some c ≠ avoid) : f.Reached avoid b := by
  induction hpath with
  | single => exact ha
  | @cons a next b rest hsucc htail ih =>
    have hrest : ∀ c ∈ rest, some c ≠ avoid := fun c hc => hpass c (List.mem_cons_of_mem _ hc)
    exact ih (ha.step hsucc (htail.lt_of_source hb) (hrest next htail.source_mem)) hb hrest

/-- A block is reached around another exactly if some path from the first block leads to it
on which the other does not stand. -/
theorem reached_iff_path (hb : b < f.blocks.length) :
    f.Reached avoid b ↔ ∃ path, f.Path 0 b path ∧ ∀ c ∈ path, some c ≠ avoid :=
  ⟨Reached.path, fun ⟨_, hpath, hpass⟩ =>
    hpath.reached (.entry (hpath.lt_of_source hb) (hpass 0 hpath.source_mem)) hb hpass⟩

/-- **Reachability decides dominance.** The search around a block, or around none, ends with an
empty stack, and marks the blocks to which a path leads from the first one on which that block
does not stand. So of the blocks that can be reached it leaves out those that it dominates. -/
theorem reachable_decides_dominance (f : Function) (avoid : Option BlockId) :
    (∃ rounds, (round f.successors fun b => b < f.blocks.length && some b != avoid)^[rounds] ([0], []) =
        ([], f.reachableBlocks avoid)) ∧
      (f.reachable avoid).length = f.blocks.length ∧
      (∀ b, (f.reachable avoid)[b]? = some true ↔
        b < f.blocks.length ∧ ∃ path, f.Path 0 b path ∧ ∀ c ∈ path, some c ≠ avoid) ∧
      ∀ a b, (f.reachable none)[b]? = some true →
        ((f.reachable (some a))[b]? = some false ↔ ∀ path, f.Path 0 b path → a ∈ path) := by
  have hmarked : ∀ avoid b, (f.reachable avoid)[b]? = some true ↔
      b < f.blocks.length ∧ ∃ path, f.Path 0 b path ∧ ∀ c ∈ path, some c ≠ avoid := by
    intro avoid b
    rw [getElem?_reachable]
    exact ⟨fun h => ⟨h.lt, h.path⟩, fun h => (reached_iff_path h.1).mpr h.2⟩
  have hlength : ∀ avoid, (f.reachable avoid).length = f.blocks.length := fun avoid => by simp [reachable]
  refine ⟨⟨_, iterate_round (fun _ _ => successors_eq_nil) _ _ _ f.pending_successors_le⟩, hlength avoid, hmarked avoid, ?_⟩
  intro a b hb
  have hlt := ((hmarked none b).mp hb).1
  rw [List.getElem?_eq_getElem (by rwa [hlength]), Option.some.injEq, ← Bool.not_eq_true, ← Option.some.injEq,
    ← List.getElem?_eq_getElem, hmarked]
  simp [hlt]

end RangedIR.Function
