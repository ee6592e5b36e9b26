/-
RangedIR.Proofs.Optimize.Survivors — comparisons that are left by the simplification.

Comparisons are looked at once, in the order of the layout. One that is left was undecided
at that moment, but operands of it may be replaced afterwards: by the outcome of a
comparison that is looked at later, or by the only value of a phi. If a comparison that is
left has operands that decide it, one of them came into it in this way.
-/
import RangedIR.Analysis.Engine
import RangedIR.Proofs.Optimize.Flow

namespace RangedIR

/-! ## 1. Outcomes -/

namespace InstKind

variable {k : InstKind} {lookup : Operand → Option Bound}

/-- Whether the simplification may replace the instruction by an operand. -/
def isFoldable : InstKind → Bool
  | icmp .. | fcmp .. | phi _ => true
  | _ => false

theorem isFoldable_of_isCompare (h : k.isCompare = true) : k.isFoldable = true := by
  cases k with
  | icmp | fcmp => rfl
  | _ => cases h

@[simp] theorem isFoldable_mapOperands {g : Operand → Operand} : (k.mapOperands g).isFoldable = k.isFoldable := by
  cases k <;> rfl

@[simp] theorem isFoldable_literalRight : k.literalRight.isFoldable = k.isFoldable := by
  cases k with
  | icmp | fcmp =>
    unfold literalRight
    dsimp only
    split_ifs <;> rfl
  | _ => rfl

theorem operands_literalRight_subset : k.literalRight.operands ⊆ k.operands := by
  cases k with
  | icmp | fcmp =>
    unfold literalRight
    dsimp only
    split_ifs <;> simp [operands]
  | _ => exact List.Subset.refl _

theorem outcome?_mapOperands (τ : Operand → Operand) :
    (k.mapOperands τ).outcome? lookup = k.outcome? (lookup ∘ τ) := by
  cases k with
  | fcmp p => cases p <;> rfl
  | _ => rfl

/-- An outcome depends on the intervals of the operands only. -/
theorem outcome?_congr {lookup' : Operand → Option Bound} (h : ∀ x ∈ k.operands, lookup x = lookup' x) :
    k.outcome? lookup = k.outcome? lookup' := by
  cases k with
  | icmp p ty lhs rhs =>
    simp only [outcome?, h lhs (by simp [operands]), h rhs (by simp [operands])]
  | fcmp p ty lhs rhs =>
    cases p <;> simp only [outcome?, h lhs (by simp [operands]), h rhs (by simp [operands])]
  | _ => rfl

/-- New operands decide a comparison only if one of them has another interval. -/
theorem exists_changed_operand {τ : Operand → Operand} {t : Bool} (hnone : k.outcome? lookup = none)
    (ht : (k.mapOperands τ).outcome? lookup = some t) : ∃ x ∈ k.operands, lookup (τ x) ≠ lookup x := by
  by_contra hall
  push Not at hall
  have hsame : k.outcome? (lookup ∘ τ) = k.outcome? lookup := outcome?_congr hall
  rw [outcome?_mapOperands, hsame, hnone] at ht
  cases ht

end InstKind

namespace Function

variable {f g g' : Function} {lookup : Operand → Option Bound} {i u : InstId} {ids : List InstId}

/-! ## 2. Undecided comparisons -/

/-- A comparison or a phi is gone. -/
def Retired (f g : Function) (j : InstId) : Prop :=
  j ∉ g.layout ∧ ∃ k, f.kind? j = some k ∧ k.isFoldable = true

/-- A comparison of `f` had no outcome when it was looked at, and since then only operands
that went away were replaced in it. -/
def Undecided (lookup : Operand → Option Bound) (f g : Function) (u : InstId) : Prop :=
  ∀ k', g.kind? u = some k' → k'.isCompare = true → ∃ (k seen : InstKind) (τ : Operand → Operand), f.kind? u = some k ∧
    (∀ j, .inst j ∈ seen.operands → .inst j ∈ k.operands) ∧ seen.outcome? lookup = none ∧
    k' = seen.mapOperands τ ∧ ∀ x, τ x = x ∨ ∃ j, x = .inst j ∧ f.Retired g j

theorem Retired.mono (hsub : g'.layout ⊆ g.layout) (h : f.Retired g u) : f.Retired g' u :=
  ⟨fun hu => h.1 (hsub hu), h.2⟩

theorem Undecided.of_kind (h : Undecided lookup f g u) (hsub : g'.layout ⊆ g.layout)
    (hkind : ∀ k', g'.kind? u = some k' → k'.isCompare = true → g.kind? u = some k') : Undecided lookup f g' u := by
  intro k' hk' hcompare
  obtain ⟨k, seen, τ, hk, hinst, hnone, hmap, hτ⟩ := h k' (hkind k' hk' hcompare) hcompare
  exact ⟨k, seen, τ, hk, hinst, hnone, hmap, fun x => (hτ x).imp_right fun ⟨j, hx, hj⟩ => ⟨j, hx, hj.mono hsub⟩⟩

/-- What becomes of any instruction, also of one that is not listed. -/
theorem kind?_replaceBy_eq (g : Function) (i u : InstId) (op : Operand) : (g.replaceBy i op).kind? u =
    (g.kind? u).map fun k => if u ∈ g.layout then k.mapOperands (substitute i op) else k := by
  unfold replaceBy kind?
  rw [inst?_erase, inst?_replaceUses]
  cases g.inst? u with
  | none => rfl
  | some inst => simp only [Option.map_some, apply_ite Inst.kind, ite_self]

theorem layout_replaceBy_subset (hg : g.Placed) (op : Operand) : (g.replaceBy i op).layout ⊆ g.layout :=
  fun _ hu => ((mem_layout_replaceBy hg).mp hu).2

theorem Undecided.replaceBy (h : Undecided lookup f g u) (hg : g.Placed) (op : Operand)
    (hi : ∃ k, f.kind? i = some k ∧ k.isFoldable = true) : Undecided lookup f (g.replaceBy i op) u := by
  have hsub := layout_replaceBy_subset (i := i) hg op
  have hgone : f.Retired (g.replaceBy i op) i := ⟨fun hmem => ((mem_layout_replaceBy hg).mp hmem).1 rfl, hi⟩
  by_cases hu : u ∈ g.layout
  · intro k' hk' hcompare
    simp only [kind?_replaceBy_eq, if_pos hu] at hk'
    obtain ⟨old, hold, rfl⟩ := Option.map_eq_some_iff.mp hk'
    obtain ⟨k, seen, τ, hk, hinst, hnone, rfl, hτ⟩ := h old hold (by simpa using hcompare)
    refine ⟨k, seen, substitute i op ∘ τ, hk, hinst, hnone, seen.mapOperands_mapOperands τ _, fun x => ?_⟩
    rcases hτ x with hx | ⟨j, rfl, hj⟩
    · -- The operand was in its place until now.
      rw [Function.comp_apply, hx]
      cases x with
      | inst j =>
        by_cases hji : j = i
        · exact Or.inr ⟨j, rfl, hji ▸ hgone⟩
        · exact Or.inl (if_neg fun heq => hji (Option.some.inj heq))
      | _ => exact Or.inl rfl
    · exact Or.inr ⟨j, rfl, hj.mono hsub⟩
  · refine h.of_kind hsub fun k' hk' _ => ?_
    simpa [kind?_replaceBy_eq, hu] using hk'

/-! ## 3. Sweeps -/

/-- Between two steps of the simplification of `f`, with some instructions still to be
looked at. -/
structure Swept (lookup : Operand → Option Bound) (f g : Function) (ids : List InstId) : Prop where
  placed : g.Placed
  recast : ∀ {u : InstId} {k' : InstKind}, g.kind? u = some k' → ∃ k, f.kind? u = some k ∧ k'.isFoldable = k.isFoldable
  /-- Until an instruction is looked at, its operands only become literals. -/
  pending : ∀ {u : InstId} {k' : InstKind}, u ∈ ids → g.kind? u = some k' → ∃ k, f.kind? u = some k ∧
    ∀ j, .inst j ∈ k'.operands → .inst j ∈ k.operands
  settled : ∀ {u : InstId}, u ∈ g.layout → u ∉ ids → Undecided lookup f g u

theorem swept_start (hf : f.Placed) : Swept lookup f f f.layout where
  placed := hf
  recast hk := ⟨_, hk, rfl⟩
  pending _ hk := ⟨_, hk, fun _ hj => hj⟩
  settled hu hnot := absurd hu hnot

/-- An instruction is done with if it has no outcome or is not there. -/
theorem Swept.settle (h : Swept lookup f g (i :: ids)) (hi : i ∈ g.layout → Undecided lookup f g i) :
    Swept lookup f g ids where
  placed := h.placed
  recast := h.recast
  pending hu := h.pending (List.mem_cons_of_mem _ hu)
  settled {u} hu hnot := by
    by_cases hui : u = i
    · exact hui ▸ hi (hui ▸ hu)
    · exact h.settled hu fun hmem => (List.mem_cons.mp hmem).elim hui hnot

theorem Swept.replaceBy (h : Swept lookup f g ids) {k : InstKind} (hk : g.kind? i = some k)
    (hfoldable : k.isFoldable = true) {op : Operand} (hop : ∀ j, op = .inst j → ids = []) :
    Swept lookup f (g.replaceBy i op) ids where
  placed := h.placed.replaceBy i op
  recast {u k'} hk' := by
    rw [kind?_replaceBy_eq] at hk'
    obtain ⟨old, hold, rfl⟩ := Option.map_eq_some_iff.mp hk'
    obtain ⟨first, hfirst, hsame⟩ := h.recast hold
    refine ⟨first, hfirst, ?_⟩
    split_ifs
    · rw [InstKind.isFoldable_mapOperands, hsame]
    · exact hsame
  pending {u k'} hu hk' := by
    rw [kind?_replaceBy_eq] at hk'
    obtain ⟨old, hold, rfl⟩ := Option.map_eq_some_iff.mp hk'
    obtain ⟨first, hfirst, hinst⟩ := h.pending hu hold
    refine ⟨first, hfirst, fun j hj => hinst j ?_⟩
    split_ifs at hj
    · rw [InstKind.operands_mapOperands] at hj
      obtain ⟨x, hx, hxj⟩ := List.mem_map.mp hj
      unfold substitute at hxj
      split_ifs at hxj
      · rw [hop j hxj] at hu
        cases hu
      · exact hxj ▸ hx
    · exact hj
  settled hu hnot := by
    obtain ⟨first, hfirst, hsame⟩ := h.recast hk
    exact (h.settled ((mem_layout_replaceBy h.placed).mp hu).2 hnot).replaceBy h.placed op
      ⟨first, hfirst, hsame ▸ hfoldable⟩

/-- A step that leaves comparisons alone. -/
structure Bypasses (g g' : Function) : Prop where
  layout : g'.layout ⊆ g.layout
  kind : ∀ {u : InstId} {k' : InstKind}, g'.kind? u = some k' →
    ∃ k, g.kind? u = some k ∧ k'.isFoldable = k.isFoldable ∧ (k'.isCompare = true → k' = k)

theorem Swept.bypass (h : Swept lookup f g []) (hstep : g.Bypasses g') (hg' : g'.Placed) :
    Swept lookup f g' [] where
  placed := hg'
  recast hk' := by
    obtain ⟨old, hold, hsame, -⟩ := hstep.kind hk'
    obtain ⟨first, hfirst, hsame'⟩ := h.recast hold
    exact ⟨first, hfirst, hsame.trans hsame'⟩
  pending hu := absurd hu List.not_mem_nil
  settled {u} hu hnot := by
    refine (h.settled (hstep.layout hu) hnot).of_kind hstep.layout fun k' hk' hcompare => ?_
    obtain ⟨old, hold, -, heq⟩ := hstep.kind hk'
    exact heq hcompare ▸ hold

/-! ## 4. Steps -/

theorem kind?_modifyInst (g : Function) (i u : InstId) (change : InstKind → InstKind) :
    (g.modifyInst i fun inst => { inst with kind := change inst.kind }).kind? u =
      (g.kind? u).map fun k => if i = u then change k else k := by
  unfold kind?
  rw [inst?_modifyInst]
  cases g.inst? u with
  | none => rfl
  | some inst => by_cases hu : i = u <;> simp [hu]

theorem Swept.mirror (h : Swept lookup f g ids) (hi : i ∈ ids) :
    Swept lookup f (g.modifyInst i fun inst => { inst with kind := inst.kind.literalRight }) ids where
  placed := (g.peephole_literalRight i).placed h.placed
  recast {u k'} hk' := by
    rw [kind?_modifyInst] at hk'
    obtain ⟨old, hold, rfl⟩ := Option.map_eq_some_iff.mp hk'
    obtain ⟨first, hfirst, hsame⟩ := h.recast hold
    refine ⟨first, hfirst, ?_⟩
    split_ifs
    · rw [InstKind.isFoldable_literalRight, hsame]
    · exact hsame
  pending {u k'} hu hk' := by
    rw [kind?_modifyInst] at hk'
    obtain ⟨old, hold, rfl⟩ := Option.map_eq_some_iff.mp hk'
    obtain ⟨first, hfirst, hinst⟩ := h.pending hu hold
    refine ⟨first, hfirst, fun j hj => hinst j ?_⟩
    split_ifs at hj
    · exact InstKind.operands_literalRight_subset hj
    · exact hj
  settled {u} hu hnot := by
    rw [(g.peephole_literalRight i).layout_eq] at hu
    refine (h.settled hu hnot).of_kind (List.Subset.refl _) fun k' hk' _ => ?_
    have hui : i ≠ u := by
      rintro rfl
      exact hnot hi
    rw [kind?_modifyInst] at hk'
    simpa [hui] using hk'

theorem swept_foldCompares {id : FuncId} {table : Bounds} (ids : List InstId) :
    ∀ g, Swept (table.operand? id) f g ids → Swept (table.operand? id) f (foldCompares id table ids g).1 [] := by
  induction ids with
  | nil => exact fun g hg => hg
  | cons i rest ih =>
    intro g hg
    have hmirror := hg.mirror List.mem_cons_self
    unfold foldCompares
    dsimp only
    split
    next t ht =>
      obtain ⟨k, hk, ht⟩ := Option.bind_eq_some_iff.mp ht
      have hcompare := (InstKind.of_outcome? ht).1
      have hconst : ∀ j, Operand.const (.bool t) = .inst j → i :: rest = [] := fun j hj => by cases hj
      have hreplaced := hmirror.replaceBy hk (InstKind.isFoldable_of_isCompare hcompare) hconst
      exact ih _ (hreplaced.settle fun hi => absurd rfl ((mem_layout_replaceBy hmirror.placed).mp hi).1)
    next hnone =>
      refine ih _ (hmirror.settle fun _ k' hk' _ => ?_)
      obtain ⟨k, hk, hinst⟩ := hmirror.pending List.mem_cons_self hk'
      rw [hk', Option.bind_some] at hnone
      exact ⟨k, k', fun x => x, hk, hinst, hnone, k'.mapOperands_id.symm, fun x => Or.inl rfl⟩

theorem bypasses_foldBranch (g : Function) (b : BlockId) : g.Bypasses (g.foldBranch b).1 := by
  have hrefl : g.Bypasses g := ⟨List.Subset.refl _, fun hk => ⟨_, hk, rfl, fun _ => rfl⟩⟩
  unfold foldBranch
  split
  · exact hrefl
  · rename_i t _
    split
    · rename_i target htarget
      obtain ⟨k, hk, htarget⟩ := Option.bind_eq_some_iff.mp htarget
      refine ⟨List.Subset.refl _, fun {u k'} hk' => ?_⟩
      rw [kind?_modifyInst g t u fun _ => .br target] at hk'
      obtain ⟨old, hold, rfl⟩ := Option.map_eq_some_iff.mp hk'
      refine ⟨old, hold, ?_⟩
      split_ifs with htu
      · rw [← htu, hk, Option.some.injEq] at hold
        subst hold
        cases k with
        | condBr => exact ⟨rfl, fun h => by cases h⟩
        | _ => cases htarget
      · exact ⟨rfl, fun _ => rfl⟩
    · exact hrefl

theorem bypasses_dropStaleIncoming (g : Function) : g.Bypasses g.dropStaleIncoming := by
  refine ⟨List.Subset.refl _, fun {u k'} hk' => ?_⟩
  unfold kind? inst? dropStaleIncoming at hk'
  dsimp only at hk'
  rw [List.getElem?_mapIdx, Option.map_map] at hk'
  obtain ⟨inst, hinst, rfl⟩ := Option.map_eq_some_iff.mp hk'
  refine ⟨inst.kind, kind?_eq hinst, ?_⟩
  rw [Function.comp_apply]
  split_ifs
  · cases inst.kind with
    | phi => exact ⟨rfl, fun h => by cases h⟩
    | _ => exact ⟨rfl, fun _ => rfl⟩
  · exact ⟨rfl, fun _ => rfl⟩

theorem bypasses_retainBlocks (g : Function) (keep : List Bool) : g.Bypasses (g.retainBlocks keep) := by
  refine ⟨((g.sublist_retainBlocks keep).flatMap _).subset, fun {u k'} hk' => ?_⟩
  unfold kind? at hk'
  rw [inst?_retainBlocks, Option.map_map] at hk'
  obtain ⟨inst, hinst, rfl⟩ := Option.map_eq_some_iff.mp hk'
  refine ⟨inst.kind, kind?_eq hinst, ?_⟩
  rw [Function.comp_apply]
  split_ifs
  · exact ⟨rfl, fun _ => rfl⟩
  · exact ⟨rfl, fun _ => rfl⟩
  · cases inst.kind with
    | phi | br | condBr => exact ⟨rfl, fun h => by cases h⟩
    | _ => exact ⟨rfl, fun _ => rfl⟩

theorem Swept.removeUnreachable (h : Swept lookup f g []) : Swept lookup f g.removeUnreachable.1 [] := by
  unfold Function.removeUnreachable
  dsimp only
  split_ifs
  · exact h
  · exact h.bypass (g.bypasses_retainBlocks _) (h.placed.retainBlocks _)

/-! ## 5. The simplification -/

theorem swept_simplifyControlFlow (hf : f.Placed) (id : FuncId) (table : Bounds) :
    Swept (table.operand? id) f (f.simplifyControlFlow id table).1 [] := by
  rw [simplifyControlFlow_eq]
  refine collapsePhis_invariant (P := fun g => Swept (table.operand? id) f g []) ?_ _ _ ?_
  · exact fun g i op p hg hk _ => hg.replaceBy hk rfl fun _ _ => rfl
  · have hfolded : Swept (table.operand? id) f (f.folded id table) [] :=
      foldBranches_invariant (P := fun g => Swept (table.operand? id) f g [])
        (fun g b hg => hg.bypass (g.bypasses_foldBranch b) ((g.peephole_foldBranch b).placed hg.placed)) _ _
        (swept_foldCompares f.layout f (swept_start hf))
    exact (hfolded.bypass (bypasses_dropStaleIncoming _)
      ((peephole_dropStaleIncoming hfolded.placed).placed hfolded.placed)).removeUnreachable

/-- **Comparisons that are left.** If the intervals of its operands decide a comparison that
is left by the simplification, then it was given an operand in the place of another one: of
a comparison or phi that the function used there and that is gone, with another interval. -/
theorem decided_survivor_replaced_operand {items : List Source.Item} {m : Module} (h : Scope.resolve items = .ok m)
    (hf : f ∈ m.functions) (id : FuncId) (table : Bounds) {k' : InstKind} {t : Bool}
    (hu : u ∈ (f.simplifyControlFlow id table).1.layout)
    (hk' : (f.simplifyControlFlow id table).1.kind? u = some k') (ht : k'.outcome? (table.operand? id) = some t) :
    ∃ k j op, f.kind? u = some k ∧ .inst j ∈ k.operands ∧ op ∈ k'.operands ∧
      table.operand? id op ≠ table.operand? id (.inst j) ∧ f.Retired (f.simplifyControlFlow id table).1 j := by
  have hswept := swept_simplifyControlFlow (intact_of_resolve h hf).toPlaced id table
  obtain ⟨k, seen, τ, hk, hinst, hnone, rfl, hτ⟩ :=
    hswept.settled hu List.not_mem_nil k' hk' (InstKind.of_outcome? ht).1
  obtain ⟨x, hx, hne⟩ := InstKind.exists_changed_operand hnone ht
  rcases hτ x with heq | ⟨j, rfl, hj⟩
  · exact absurd (congrArg _ heq) hne
  · refine ⟨k, j, τ (.inst j), hk, hinst j hx, ?_, hne, hj⟩
    rw [InstKind.operands_mapOperands]
    exact List.mem_map_of_mem hx

/-! ## 6. Examples -/

/-- A comparison that is used in a block before its own, of a sum in a block behind it. -/
def readsAhead : Function where
  name := "f"
  retTy := .int 1
  params := []
  rangeType := none
  blocks := [⟨"entry", [0]⟩, ⟨"use", [1, 2]⟩, ⟨"compare", [3, 4]⟩, ⟨"sum", [5, 6]⟩]
  insts :=
    [⟨none, .br 3, .void, none, 0, false⟩,
      ⟨some "d", .icmp .eq (.int 1) (.inst 3) (.const (.bool true)), .int 1, none, 1, false⟩,
      ⟨none, .ret (some (.int 1, .inst 1)), .void, none, 1, false⟩,
      ⟨some "c", .icmp .slt (.int 32) (.inst 5) (.const (.int 10)), .int 1, none, 2, false⟩,
      ⟨none, .br 1, .void, none, 2, false⟩,
      ⟨some "x", .binary .add (.const (.int 1)) (.const (.int 2)), .int 32, none, 3, false⟩,
      ⟨none, .br 2, .void, none, 3, false⟩]

/-- The same function as it is written. -/
def readsAheadItems : List Source.Item := [
  .define ⟨.ofName "f", .int 1, [], none, [
    ⟨.ofName "entry", [⟨none, .br (.ofName "sum"), none, ⟨0, 0⟩⟩]⟩,
    ⟨.ofName "use", [
      ⟨some (.ofName "d"), .icmp .eq (.int 1) (.loc (.ofName "c")) (.lit (.bool true)), none, ⟨0, 0⟩⟩,
      ⟨none, .ret (some ⟨.int 1, .loc (.ofName "d")⟩), none, ⟨0, 0⟩⟩]⟩,
    ⟨.ofName "compare", [
      ⟨some (.ofName "c"), .icmp .slt (.int 32) (.loc (.ofName "x")) (.lit (.int 10)), none, ⟨0, 0⟩⟩,
      ⟨none, .br (.ofName "use"), none, ⟨0, 0⟩⟩]⟩,
    ⟨.ofName "sum", [
      ⟨some (.ofName "x"), .binary .add (.int 32) (.lit (.int 1)) (.lit (.int 2)), none, ⟨0, 0⟩⟩,
      ⟨none, .br (.ofName "compare"), none, ⟨0, 0⟩⟩]⟩], ⟨0, 0⟩⟩]

/-- The sum is three; nothing is known about the comparison. -/
def readsAheadBounds : Bounds := (Bounds.ofSeeds .empty).insert (.inst 0 5) (.singleton 3.0)

/-- When the use is looked at, the comparison has not been folded. -/
theorem decided_survivor_replaced_operand_readsAhead :
    Scope.resolve readsAheadItems = .ok ⟨none, [], [], [], [readsAhead]⟩ ∧
    1 ∈ (readsAhead.simplifyControlFlow 0 readsAheadBounds).1.layout ∧
    ∃ k j op, readsAhead.kind? 1 = some k ∧ .inst j ∈ k.operands ∧ op ∈ [.const (.bool true), .const (.bool true)] ∧
      readsAheadBounds.operand? 0 op ≠ readsAheadBounds.operand? 0 (.inst j) ∧
      readsAhead.Retired (readsAhead.simplifyControlFlow 0 readsAheadBounds).1 j := by
  have hread : Scope.resolve readsAheadItems = .ok ⟨none, [], [], [], [readsAhead]⟩ := rfl
  have hlayout : (readsAhead.simplifyControlFlow 0 readsAheadBounds).1.layout = [0, 1, 2, 4, 5, 6] := rfl
  have hkind : (readsAhead.simplifyControlFlow 0 readsAheadBounds).1.kind? 1 =
      some (.icmp .eq (.int 1) (.const (.bool true)) (.const (.bool true))) := rfl
  have hlisted : 1 ∈ (readsAhead.simplifyControlFlow 0 readsAheadBounds).1.layout := by
    rw [hlayout]
    decide
  exact ⟨hread, hlisted, decided_survivor_replaced_operand (t := true) hread (List.mem_singleton_self _) 0
    readsAheadBounds hlisted hkind rfl⟩

/-- What the analysis finds out about the only function of a module. -/
def analyzed (f : Function) : Bounds :=
  (analyzeFunction ⟨⟨none, [], [], [], [f]⟩, .default, .default, true⟩ .initial 0 (.ofSeeds .empty)).2.1

/-- A phi is replaced by its only value, and the comparison with it, looked at before, is
left although it compares two equal literals. -/
theorem decided_comparison_survives :
    Scope.resolve oneWayItems = .ok ⟨none, [], [], [], [oneWay]⟩ ∧
    (oneWay.simplifyControlFlow 0 (analyzed oneWay)).1.layout = [1, 2, 5, 6] ∧
    (oneWay.simplifyControlFlow 0 (analyzed oneWay)).1.kind? 5 =
      some (.icmp .eq (.int 32) (.const (.int 1)) (.const (.int 1))) ∧
    (InstKind.icmp .eq (.int 32) (.const (.int 1)) (.const (.int 1))).outcome? ((analyzed oneWay).operand? 0) =
      some true :=
  ⟨resolve_oneWayItems, rfl, rfl, rfl⟩

end Function

end RangedIR
