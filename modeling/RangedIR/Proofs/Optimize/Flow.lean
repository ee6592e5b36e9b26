/-
RangedIR.Proofs.Optimize.Flow — the control flow of a simplified function.

Which blocks remain is decided once the branches are folded. What follows, the removal of
stale phi values, of blocks and of phis, leaves the branches between the remaining blocks
as they are. Blocks may hold branches before their end; only what stands last counts.
-/
import RangedIR.Proofs.Code.Edits
import RangedIR.Proofs.Optimize.References

namespace RangedIR

namespace Function

variable {f g : Function}

/-! ## 1. The same control flow -/

/-- The labels of the blocks that a block may lead to. -/
def exits (f : Function) (b : BlockId) : List (Option String) :=
  (f.successors b).map fun t => (f.blocks[t]?).map (·.label)

/-- Blocks end in the same instructions, which lead to the same blocks. -/
structure SameFlow (f g : Function) : Prop where
  labels : g.blocks.map (·.label) = f.blocks.map (·.label)
  terminator? : ∀ b, g.terminator? b = f.terminator? b
  successors : ∀ b, g.successors b = f.successors b

namespace SameFlow

theorem refl (f : Function) : f.SameFlow f := ⟨rfl, fun _ => rfl, fun _ => rfl⟩

theorem symm (h : f.SameFlow g) : g.SameFlow f :=
  ⟨h.labels.symm, fun b => (h.terminator? b).symm, fun b => (h.successors b).symm⟩

theorem trans {e : Function} (h : e.SameFlow f) (h' : f.SameFlow g) : e.SameFlow g :=
  ⟨h'.labels.trans h.labels, fun b => (h'.terminator? b).trans (h.terminator? b),
    fun b => (h'.successors b).trans (h.successors b)⟩

theorem length (h : f.SameFlow g) : g.blocks.length = f.blocks.length := by
  simpa using congrArg List.length h.labels

theorem label (h : f.SameFlow g) (b : BlockId) : (g.blocks[b]?).map (·.label) = (f.blocks[b]?).map (·.label) := by
  rw [← List.getElem?_map, h.labels, List.getElem?_map]

theorem exits (h : f.SameFlow g) (b : BlockId) : g.exits b = f.exits b := by
  unfold Function.exits
  simp only [h.successors, h.label]

theorem reached (h : f.SameFlow g) {avoid : Option BlockId} {b : BlockId} (hb : f.Reached avoid b) :
    g.Reached avoid b := by
  induction hb with
  | entry h0 hne => exact .entry (h.length ▸ h0) hne
  | step _ hsucc hlt hne ih => exact ih.step (h.successors _ ▸ hsucc) (h.length ▸ hlt) hne

end SameFlow

theorem labels_replaceBy (hf : f.Placed) (i : InstId) (op : Operand) :
    (f.replaceBy i op).blocks.map (·.label) = f.blocks.map (·.label) := by
  rw [blocks_replaceBy_eq_map hf, List.map_map]
  rfl

theorem sameFlow_replaceBy (hf : f.Placed) (hends : f.Ended) {i : InstId} (op : Operand)
    (hnot : ∀ k, f.kind? i = some k → k.isTerminator = false) : f.SameFlow (f.replaceBy i op) :=
  ⟨labels_replaceBy hf i op, fun b => (terminator?_replaceBy hf hends op hnot b).1,
    fun b => (terminator?_replaceBy hf hends op hnot b).2⟩

/-- Dropping values of phis changes no branch. -/
theorem sameFlow_dropStaleIncoming (hf : f.Placed) : f.SameFlow f.dropStaleIncoming := by
  have hterm : ∀ b, f.dropStaleIncoming.terminator? b = f.terminator? b ∧
      ∀ t, f.terminator? b = some t → f.dropStaleIncoming.kind? t = f.kind? t := by
    intro b
    cases hb : f.blocks[b]? with
    | none =>
      have hb' : f.dropStaleIncoming.blocks[b]? = none := hb
      simp [terminator?, hb, hb']
    | some block =>
      have hb' : f.dropStaleIncoming.blocks[b]? = some block := hb
      cases hlast : block.insts.getLast? with
      | none => simp [terminator?, hb, hb', hlast]
      | some t =>
        have ht : f.StandsIn t b := ⟨block, hb, List.mem_of_getLast? hlast⟩
        obtain ⟨inst, hinst, -⟩ := hf.placed ht
        have hinst' := inst?_dropStaleIncoming hf ht hinst
        cases hk : inst.kind with
        | phi incoming => simp [terminator?, kind?, hb, hb', hlast, hinst, hinst', hk, InstKind.filterIncoming, InstKind.isTerminator]
        | _ => simp [terminator?, kind?, hb, hb', hlast, hinst, hinst', hk, InstKind.filterIncoming]
  refine ⟨rfl, fun b => (hterm b).1, fun b => ?_⟩
  unfold successors
  rw [(hterm b).1]
  cases ht : f.terminator? b with
  | none => rfl
  | some t => rw [Option.bind_some, Option.bind_some, (hterm b).2 t ht]

/-! ## 2. Folded comparisons and branches -/

/-- A function with its decided comparisons and branches folded. -/
def folded (f : Function) (id : FuncId) (table : Bounds) : Function :=
  (foldBranches (List.range (foldCompares id table f.layout f).1.blocks.length) (foldCompares id table f.layout f).1).1

theorem folded_arranged (hf : f.Placed) (hends : f.Ended) (id : FuncId) (table : Bounds) :
    (f.folded id table).Placed ∧ (f.folded id table).Ended ∧
      (f.folded id table).blocks.map (·.label) = f.blocks.map (·.label) := by
  let P (g : Function) : Prop := g.Placed ∧ g.Ended ∧ g.blocks.map (·.label) = f.blocks.map (·.label)
  have hpeep : ∀ {g g' : Function}, g.Peephole g' → P g → P g' :=
    fun h hg => ⟨h.placed hg.1, h.ended hg.2.1, h.blocks ▸ hg.2.2⟩
  change P (foldBranches _ _).1
  refine foldBranches_invariant (fun g b hg => hpeep (g.peephole_foldBranch b) hg) _ _ ?_
  refine foldCompares_invariant (fun g i hg => hpeep (g.peephole_literalRight i) hg) ?_ _ f ⟨hf, hends, rfl⟩
  rintro g i k t ⟨hg, hends, hlabels⟩ hk ht
  have hnot := not_isTerminator_of_decided hk ht
  exact ⟨hg.replaceBy i _, ended_replaceBy hg hends _ hnot, (labels_replaceBy hg i _).trans hlabels⟩

/-! ## 3. Values of phis -/

/-- Phis get values from predecessors of their blocks only. -/
def Fed (f : Function) : Prop :=
  ∀ {u : InstId} {b : BlockId} {incoming : List (Operand × BlockId)}, f.StandsIn u b →
    f.kind? u = some (.phi incoming) → ∀ e ∈ incoming, b ∈ f.successors e.2

theorem fed_dropStaleIncoming (hf : f.Placed) : f.dropStaleIncoming.Fed := by
  intro u b incoming hu hk e he
  have hu' : f.StandsIn u b := hu
  obtain ⟨inst, hinst, -⟩ := hf.placed hu'
  rw [kind?_eq (inst?_dropStaleIncoming hf hu' hinst), Option.some.injEq] at hk
  rw [(sameFlow_dropStaleIncoming hf).successors]
  cases hkind : inst.kind with
  | phi old =>
    rw [hkind] at hk
    cases hk
    have hmem := (List.mem_filter.mp he).2
    rw [List.contains_iff_mem, mem_predecessors] at hmem
    exact hmem.2.2
  | _ =>
    rw [hkind] at hk
    cases hk

theorem Fed.replaceBy (h : f.Fed) (hf : f.Placed) (hends : f.Ended) {i : InstId} (op : Operand)
    (hnot : ∀ k, f.kind? i = some k → k.isTerminator = false) : (f.replaceBy i op).Fed := by
  intro u b incoming hu hk' e he
  obtain ⟨hne, hu⟩ := (standsIn_replaceBy hf).mp hu
  obtain ⟨old, hk, rfl⟩ := phi_of_replaceBy (mem_layout.mpr ⟨b, hu⟩) hne hk'
  obtain ⟨e', he', rfl⟩ := List.mem_map.mp he
  rw [(sameFlow_replaceBy hf hends op hnot).successors]
  exact h hu hk e' he'

theorem Fed.renumbered {number : BlockId → Option BlockId} (h : f.Fed) (hf : f.Placed)
    (hmoved : f.Renumbered g number) : g.Fed := by
  intro u n incoming hu hk' e he
  obtain ⟨b, hb, hu⟩ := hmoved.standsIn_back hu
  obtain ⟨k, hk, hkind⟩ := hmoved.kind?_back hf hu hb hk'
  obtain ⟨old, rfl, rfl⟩ := InstKind.moved_eq_phi hkind.symm
  obtain ⟨e', he', rfl⟩ := List.mem_map.mp he
  obtain ⟨he', hsome⟩ := List.mem_filter.mp he'
  obtain ⟨q, hq⟩ := Option.isSome_iff_exists.mp hsome
  dsimp only
  rw [hq, Option.getD_some, hmoved.successors_eq hf hq]
  exact List.mem_map.mpr ⟨b, h hu hk e' he', by rw [hb, Option.getD_some]⟩

/-! ## 4. Blocks that remain -/

/-- Of the blocks of `f` the ones that are reached remain in `g`, in their order, and lead
to the same ones. -/
structure Keeps (f g : Function) (kept : List BlockId) : Prop where
  ordered : kept.Pairwise (· < ·)
  mem_iff : ∀ b, b ∈ kept ↔ f.Reached none b
  labels : g.blocks.map (fun block => some block.label) = kept.map fun b => (f.blocks[b]?).map (·.label)
  ends : ∀ {n b : BlockId}, kept[n]? = some b → g.terminator? n = f.terminator? b ∧ g.exits n = f.exits b

theorem Keeps.congr {f' g' : Function} {kept : List BlockId} (h : f.Keeps g kept) (hf : f'.SameFlow f)
    (hg : g.SameFlow g') : f'.Keeps g' kept where
  ordered := h.ordered
  mem_iff b := (h.mem_iff b).trans ⟨hf.symm.reached, hf.reached⟩
  labels := by
    simp only [← hf.label, ← h.labels]
    simpa [Function.comp_def] using congrArg (List.map some) hg.labels
  ends hb := ⟨(hg.terminator? _).trans ((h.ends hb).1.trans (hf.terminator? _)),
    (hg.exits _).trans ((h.ends hb).2.trans (hf.exits _))⟩

theorem getElem?_kept {keep : List Bool} {count n b : Nat} :
    (keptFrom (fun i => (renumbering keep count i).isSome) (List.range count) 0)[n]? = some b ↔
      renumbering keep count b = some n := by
  constructor
  · intro h
    obtain ⟨m, hm, hkeep, hcount, hmem⟩ := exists_of_keptFrom _ h
    obtain ⟨-, rfl⟩ := List.getElem?_eq_some_iff.mp hmem
    simp only [Nat.zero_add] at hkeep
    obtain ⟨n', hn'⟩ := Option.isSome_iff_exists.mp hkeep
    rw [List.getElem_range, hn', ← hcount, countP_renumbering hn']
  · intro h
    have hsome : (renumbering keep count (0 + b)).isSome = true := by rw [Nat.zero_add, h]; rfl
    have hlt := (isSome_renumbering.mp (by rwa [Nat.zero_add] at hsome)).1
    have hat := getElem?_keptFrom (l := List.range count) (fun i => (renumbering keep count i).isSome)
      (by simpa using hlt) hsome
    rw [countP_renumbering h, List.getElem?_range hlt] at hat
    exact hat

/-- Blocks whose new numbers are known remain as they are. -/
theorem keeps_retainBlocks (hf : f.Placed) : ∃ kept, f.Keeps (f.retainBlocks (f.reachable none)) kept := by
  have hmoved := renumbered_retainBlocks hf
  have hnumber : ∀ {n b}, (keptFrom (fun i => (f.newNumber i).isSome) (List.range f.blocks.length) 0)[n]? = some b ↔
      f.newNumber b = some n := getElem?_kept
  refine ⟨keptFrom (fun i => (f.newNumber i).isSome) (List.range f.blocks.length) 0,
    List.pairwise_lt_range.sublist (keptFrom_sublist _ _ 0), ?_, ?_, ?_⟩
  · intro b
    rw [List.mem_iff_getElem?, ← hmoved.isSome_iff, Option.isSome_iff_exists]
    simp only [hnumber]
  · refine List.ext_getElem? fun n => ?_
    rw [List.getElem?_map, List.getElem?_map]
    cases hkept : (keptFrom (fun i => (f.newNumber i).isSome) (List.range f.blocks.length) 0)[n]? with
    | some b =>
      have hb := hnumber.mp hkept
      rw [hmoved.blocks hb, Option.map_some, List.getElem?_eq_getElem (hmoved.reached hb).lt]
      rfl
    | none =>
      cases hblock : (f.retainBlocks (f.reachable none)).blocks[n]? with
      | none => rfl
      | some block =>
        obtain ⟨b, hb, -⟩ := hmoved.blocks_back hblock
        rw [hnumber.mpr hb] at hkept
        cases hkept
  · intro n b hb
    have hb := hnumber.mp hb
    refine ⟨hmoved.terminator?_eq hf hb, ?_⟩
    unfold exits
    rw [hmoved.successors_eq hf hb, List.map_map]
    exact List.map_congr_left fun t ht => hmoved.label_successor (hmoved.reached hb) ht

theorem keeps_of_reached (hall : ∀ b < f.blocks.length, f.Reached none b) :
    f.Keeps f (List.range f.blocks.length) where
  ordered := List.pairwise_lt_range
  mem_iff b := ⟨fun hb => hall b (List.mem_range.mp hb), fun hb => List.mem_range.mpr hb.lt⟩
  labels := by
    refine List.ext_getElem? fun n => ?_
    rw [List.getElem?_map, List.getElem?_map]
    by_cases hn : n < f.blocks.length
    · rw [List.getElem?_range hn, Option.map_some, List.getElem?_eq_getElem hn]
      rfl
    · rw [List.getElem?_eq_none (not_lt.mp hn), List.getElem?_eq_none (by simpa using hn)]
      rfl
  ends {n b} hb := by
    obtain ⟨-, rfl⟩ := List.getElem?_eq_some_iff.mp hb
    rw [List.getElem_range]
    exact ⟨rfl, rfl⟩

/-- The removal of blocks leaves those that are reached. -/
theorem removeUnreachable_keeps (hf : f.Placed) (hends : f.Ended) (hfed : f.Fed) :
    (∃ kept, f.Keeps f.removeUnreachable.1 kept) ∧
      (∀ b < f.removeUnreachable.1.blocks.length, f.removeUnreachable.1.Reached none b) ∧
      f.removeUnreachable.1.Placed ∧ f.removeUnreachable.1.Ended ∧ f.removeUnreachable.1.Fed := by
  unfold removeUnreachable
  dsimp only
  split_ifs with hcount
  · have hall : ∀ b < f.blocks.length, f.Reached none b := by
      intro b hb
      rw [← getElem?_reachable]
      have hlen : b < (f.reachable none).length := by simpa [reachable] using hb
      rw [List.getElem?_eq_getElem hlen]
      cases hval : (f.reachable none)[b] with
      | true => rfl
      | false => exact absurd (hval ▸ List.getElem_mem hlen) (List.count_eq_zero.mp hcount)
    exact ⟨⟨_, keeps_of_reached hall⟩, hall, hf, hends, hfed⟩
  · have hmoved := renumbered_retainBlocks hf
    refine ⟨keeps_retainBlocks hf, ?_, hmoved.placed hf, hmoved.ended hends, hfed.renumbered hf hmoved⟩
    intro n hn
    obtain ⟨b, hb, -⟩ := hmoved.blocks_back (List.getElem?_eq_getElem hn)
    exact hmoved.reached_new hf (hmoved.reached hb) hb

/-! ## 5. The simplification -/

/-- `g` is `f` without what is not reached. -/
structure Trimmed (f g : Function) : Prop where
  reached : ∀ b < g.blocks.length, g.Reached none b
  /-- The blocks that a phi names are predecessors of its own. -/
  fed : ∀ {u : InstId} {b : BlockId} {incoming : List (Operand × BlockId)}, g.StandsIn u b →
    g.kind? u = some (.phi incoming) → ∀ e ∈ incoming, e.2 ∈ g.predecessors[b]?.getD []
  kept : ∃ kept, f.Keeps g kept

/-- The steps that follow the folding of branches. -/
theorem simplifyControlFlow_eq (f : Function) (id : FuncId) (table : Bounds) :
    (f.simplifyControlFlow id table).1 =
      (collapsePhis (f.folded id table).dropStaleIncoming.removeUnreachable.1.layout
        (f.folded id table).dropStaleIncoming.removeUnreachable.1).1 :=
  Machine.simplifyControlFlow_fst f id table

theorem collapsePhis_flow (hf : f.Placed) (hends : f.Ended) (hfed : f.Fed) (ids : List InstId) :
    f.SameFlow (collapsePhis ids f).1 ∧ (collapsePhis ids f).1.Fed := by
  have hall : (collapsePhis ids f).1.Placed ∧ (collapsePhis ids f).1.Ended ∧ f.SameFlow (collapsePhis ids f).1 ∧
      (collapsePhis ids f).1.Fed := by
    refine collapsePhis_invariant (P := fun g => g.Placed ∧ g.Ended ∧ f.SameFlow g ∧ g.Fed) ?_ ids f
      ⟨hf, hends, .refl f, hfed⟩
    rintro g i op p ⟨hg, hends, hflow, hfed⟩ hk -
    have hnot : ∀ k, g.kind? i = some k → k.isTerminator = false := by
      intro k' hk'
      rw [hk] at hk'
      cases hk'
      rfl
    exact ⟨hg.replaceBy i op, ended_replaceBy hg hends op hnot, hflow.trans (sameFlow_replaceBy hg hends op hnot),
      hfed.replaceBy hg hends op hnot⟩
  exact hall.2.2

/-- **Control flow after the simplification.** In a function that was read and whose blocks
end in branches or returns, every block that remains is reached from the first one, phis get
values from predecessors only, and the remaining blocks are those that are reached once
decided comparisons and branches are folded, in their order, with their labels and with
branches to the same labels. -/
theorem simplifyControlFlow_trimmed {items : List Source.Item} {m : Module} (h : Scope.resolve items = .ok m)
    (hf : f ∈ m.functions) (hends : f.Ended) (id : FuncId) (table : Bounds) :
    (f.folded id table).blocks.map (·.label) = f.blocks.map (·.label) ∧
      (f.folded id table).Trimmed (f.simplifyControlFlow id table).1 := by
  obtain ⟨hplaced, hended, hlabels⟩ := folded_arranged (intact_of_resolve h hf).toPlaced hends id table
  have hpeep := peephole_dropStaleIncoming hplaced
  obtain ⟨⟨kept, hkeeps⟩, hreached, hplaced', hended', hfed⟩ :=
    removeUnreachable_keeps (hpeep.placed hplaced) (hpeep.ended hended) (fed_dropStaleIncoming hplaced)
  obtain ⟨hflow, hfed'⟩ := collapsePhis_flow hplaced' hended' hfed
    (f.folded id table).dropStaleIncoming.removeUnreachable.1.layout
  rw [simplifyControlFlow_eq]
  refine ⟨hlabels, fun b hb => hflow.reached (hreached b (hflow.length ▸ hb)), ?_, kept,
    hkeeps.congr (sameFlow_dropStaleIncoming hplaced) hflow⟩
  intro u b incoming hu hk e he
  have hedge := hfed' hu hk e he
  obtain ⟨block, hblock, -⟩ := hu
  exact mem_predecessors.mpr ⟨lt_of_mem_successors hedge, (List.getElem?_eq_some_iff.mp hblock).1, hedge⟩

/-! ## 6. An example -/

/-- A branch on a comparison of literals, and behind it a phi and a comparison of it. -/
def oneWay : Function where
  name := "f"
  retTy := .int 1
  params := []
  rangeType := none
  blocks := [⟨"entry", [0, 1]⟩, ⟨"a", [2]⟩, ⟨"b", [3]⟩, ⟨"join", [4, 5, 6]⟩]
  insts :=
    [⟨some "c", .icmp .slt (.int 32) (.const (.int 1)) (.const (.int 2)), .int 1, none, 0, false⟩,
      ⟨none, .condBr (.inst 0) 1 2, .void, none, 0, false⟩,
      ⟨none, .br 3, .void, none, 1, false⟩,
      ⟨none, .br 3, .void, none, 2, false⟩,
      ⟨some "p", .phi [(.const (.int 1), 1), (.const (.int 2), 2)], .int 32, none, 3, false⟩,
      ⟨some "d", .icmp .eq (.int 32) (.inst 4) (.const (.int 1)), .int 1, none, 3, false⟩,
      ⟨none, .ret (some (.int 1, .inst 5)), .void, none, 3, false⟩]

/-- The same function as it is written. -/
def oneWayItems : List Source.Item := [
  .define ⟨.ofName "f", .int 1, [], none, [
    ⟨.ofName "entry", [
      ⟨some (.ofName "c"), .icmp .slt (.int 32) (.lit (.int 1)) (.lit (.int 2)), none, ⟨0, 0⟩⟩,
      ⟨none, .condBr (.loc (.ofName "c")) (.ofName "a") (.ofName "b"), none, ⟨0, 0⟩⟩]⟩,
    ⟨.ofName "a", [⟨none, .br (.ofName "join"), none, ⟨0, 0⟩⟩]⟩,
    ⟨.ofName "b", [⟨none, .br (.ofName "join"), none, ⟨0, 0⟩⟩]⟩,
    ⟨.ofName "join", [
      ⟨some (.ofName "p"), .phi (.int 32) [(.lit (.int 1), .ofName "a"), (.lit (.int 2), .ofName "b")], none, ⟨0, 0⟩⟩,
      ⟨some (.ofName "d"), .icmp .eq (.int 32) (.loc (.ofName "p")) (.lit (.int 1)), none, ⟨0, 0⟩⟩,
      ⟨none, .ret (some ⟨.int 1, .loc (.ofName "d")⟩), none, ⟨0, 0⟩⟩]⟩], ⟨0, 0⟩⟩]

theorem resolve_oneWayItems : Scope.resolve oneWayItems = .ok ⟨none, [], [], [], [oneWay]⟩ := rfl

theorem simplifyControlFlow_trimmed_oneWay :
    Scope.resolve oneWayItems = .ok ⟨none, [], [], [], [oneWay]⟩ ∧ oneWay.Ended ∧
    (oneWay.simplifyControlFlow 0 (.ofSeeds .empty)).1.blocks = [⟨"entry", [1]⟩, ⟨"a", [2]⟩, ⟨"join", [5, 6]⟩] ∧
    (oneWay.folded 0 (.ofSeeds .empty)).Trimmed (oneWay.simplifyControlFlow 0 (.ofSeeds .empty)).1 := by
  have hends : oneWay.Ended := (wellFormed_of_isWellFormed (by decide)).toArranged.ended
  exact ⟨resolve_oneWayItems, hends, rfl,
    (simplifyControlFlow_trimmed resolve_oneWayItems (List.mem_singleton_self _) hends 0 _).2⟩

end Function

end RangedIR
