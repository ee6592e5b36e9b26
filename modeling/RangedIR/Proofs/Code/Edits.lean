/-
RangedIR.Proofs.Code.Edits — functions under any sequence of changes.

Where an instruction stands is written twice, in the list of its block and in the
instruction itself, and blocks get new numbers when some of them are dropped. Every change
keeps the two in agreement and leaves the numbers of instructions alone.
-/
import RangedIR.Proofs.Code.Retained
import RangedIR.Proofs.Scope.Resolution

namespace RangedIR

/-! ## 1. Blocks that instructions name -/

namespace InstKind

variable {k k' : InstKind}

theorem targets_mapOperands (k : InstKind) (g : Operand → Operand) : (k.mapOperands g).targets = k.targets := by
  cases k with
  | phi incoming => simp [mapOperands, targets, Function.comp_def]
  | _ => rfl

theorem targets_withAlign? {a : Nat} (h : k.withAlign? a = some k') : k'.targets = k.targets := by
  cases k with
  | alloca | load | store =>
    cases h
    rfl
  | _ => cases h

theorem successors_subset_targets : k.successors ⊆ k.targets := by
  cases k with
  | br | condBr => exact List.Subset.refl _
  | _ => exact List.nil_subset _

/-- A moved instruction names moved blocks, if its branches lead to blocks that are moved:
phis lose the values of the others. -/
theorem exists_of_targets_moved {number : BlockId → Option BlockId} {n : BlockId}
    (hsucc : ∀ t ∈ k.successors, (number t).isSome = true) (hn : n ∈ (k.moved number).targets) :
    ∃ b, number b = some n := by
  have hmoved : ∀ {b}, (number b).isSome = true → number b = some ((number b).getD b) := by
    intro b hb
    obtain ⟨m, hm⟩ := Option.isSome_iff_exists.mp hb
    rw [hm, Option.getD_some]
  cases k with
  | br t =>
    obtain rfl := List.mem_singleton.mp hn
    exact ⟨t, hmoved (hsucc t List.mem_cons_self)⟩
  | condBr c t e =>
    rcases List.mem_pair.mp hn with rfl | rfl
    · exact ⟨t, hmoved (hsucc t List.mem_cons_self)⟩
    · exact ⟨e, hmoved (hsucc e (List.mem_cons_of_mem _ List.mem_cons_self))⟩
  | phi incoming =>
    simp only [moved, filterIncoming, mapBlocks, targets, List.map_map, List.mem_map, List.mem_filter] at hn
    obtain ⟨e, ⟨-, he⟩, rfl⟩ := hn
    exact ⟨e.2, hmoved he⟩
  | _ => cases hn

end InstKind

namespace Function

/-! ## 2. Changes -/

/-- A change of a function. -/
inductive Edit where
  | replaceUses (id : InstId) (replacement : Operand)
  | erase (id : InstId)
  | setAlign (id : InstId) (align : Nat)
  | retainBlocks (keep : List Bool)

/-- The function after a change. An alignment for an instruction that has none changes
nothing. -/
def edit (f : Function) : Edit → Function
  | .replaceUses id replacement => f.replaceUses id replacement
  | .erase id => f.erase id
  | .setAlign id align => (f.setAlign? id align).getD f
  | .retainBlocks keep => f.retainBlocks keep

/-- Branches in the blocks that are kept lead to blocks that are kept. -/
def ClosedUnderBranches (f : Function) (keep : List Bool) : Prop :=
  ∀ p ∈ f.blocks.zipIdx, keep[p.2]? = some true → ∀ i ∈ p.1.insts, ∀ k ∈ f.kind? i, ∀ t ∈ k.successors,
    keep[t]? = some true

instance (f : Function) (keep : List Bool) : Decidable (f.ClosedUnderBranches keep) :=
  inferInstanceAs (Decidable (∀ p ∈ f.blocks.zipIdx, keep[p.2]? = some true → ∀ i ∈ p.1.insts, ∀ k ∈ f.kind? i,
    ∀ t ∈ k.successors, keep[t]? = some true))

/-- A change may not drop a block that a branch still leads to. -/
def Allows (f : Function) : Edit → Prop
  | .retainBlocks keep => f.ClosedUnderBranches keep
  | _ => True

/-- The function after a sequence of changes. -/
def editAll (f : Function) (edits : List Edit) : Function := edits.foldl edit f

/-- Every change of a sequence is allowed when its turn comes. -/
def AllowsAll (f : Function) : List Edit → Prop
  | [] => True
  | e :: edits => f.Allows e ∧ (f.edit e).AllowsAll edits

/-! ## 3. Agreement -/

/-- The two records of where an instruction stands agree, and live instructions name
blocks that exist. -/
structure Intact (f : Function) : Prop extends Placed f where
  listed : ∀ {i : InstId} {inst : Inst}, f.inst? i = some inst → inst.erased = false → f.StandsIn i inst.block
  targets : ∀ {i : InstId} {inst : Inst}, f.inst? i = some inst → inst.erased = false →
    ∀ b ∈ inst.kind.targets, b < f.blocks.length

/-- A function that changes led to: instructions have their numbers, names and types, and
those that are left stand in their order. -/
structure Descends (f g : Function) : Prop where
  entries : g.insts.map (fun inst => (inst.name, inst.ty)) = f.insts.map fun inst => (inst.name, inst.ty)
  layout : g.layout.Sublist f.layout

theorem Descends.refl (f : Function) : f.Descends f := ⟨rfl, .refl _⟩

theorem Descends.trans {f g h : Function} (hfg : f.Descends g) (hgh : g.Descends h) : f.Descends h :=
  ⟨hgh.entries.trans hfg.entries, hgh.layout.trans hfg.layout⟩

/-- It is enough to know what becomes of each instruction. -/
theorem entries_of_inst? {f g : Function} {change : InstId → Inst → Inst}
    (hinst : ∀ u, g.inst? u = (f.inst? u).map (change u))
    (hchange : ∀ u inst, (change u inst).name = inst.name ∧ (change u inst).ty = inst.ty) :
    g.insts.map (fun inst => (inst.name, inst.ty)) = f.insts.map fun inst => (inst.name, inst.ty) := by
  refine List.ext_getElem? fun u => ?_
  have hu : g.insts[u]? = (f.insts[u]?).map (change u) := hinst u
  rw [List.getElem?_map, List.getElem?_map, hu, Option.map_map]
  congr 1
  funext inst
  rw [Function.comp_apply, (hchange u inst).1, (hchange u inst).2]

variable {f g : Function}

/-! ## 4. Changes in place -/

/-- Instructions may become others that name the same blocks. -/
theorem Intact.recode (hf : f.Intact) (change : InstId → InstKind → InstKind) (hblocks : g.blocks = f.blocks)
    (hinst : ∀ u, g.inst? u = (f.inst? u).map fun inst => { inst with kind := change u inst.kind })
    (htargets : ∀ u k, (change u k).targets = k.targets) : g.Intact ∧ f.Descends g := by
  have hlayout : g.layout = f.layout := by rw [layout, layout, hblocks]
  have hstands : ∀ u b, g.StandsIn u b ↔ f.StandsIn u b := fun u b => by rw [StandsIn, StandsIn, hblocks]
  refine ⟨⟨⟨hlayout ▸ hf.nodup, ?_⟩, ?_, ?_⟩, entries_of_inst? hinst fun _ _ => ⟨rfl, rfl⟩, by rw [hlayout]⟩
  · intro u b hu
    obtain ⟨inst, hold, hblock, herased⟩ := hf.placed ((hstands u b).mp hu)
    exact ⟨{ inst with kind := change u inst.kind }, by rw [hinst, hold, Option.map_some], hblock, herased⟩
  · intro u inst hu herased
    rw [hinst] at hu
    obtain ⟨old, hold, rfl⟩ := Option.map_eq_some_iff.mp hu
    exact (hstands u old.block).mpr (hf.listed hold herased)
  · intro u inst hu herased b hb
    rw [hinst] at hu
    obtain ⟨old, hold, rfl⟩ := Option.map_eq_some_iff.mp hu
    rw [htargets] at hb
    rw [hblocks]
    exact hf.targets hold herased b hb

theorem Intact.replaceUses (hf : f.Intact) (i : InstId) (op : Operand) :
    (f.replaceUses i op).Intact ∧ f.Descends (f.replaceUses i op) := by
  refine hf.recode (fun u k => if u ∈ f.layout then k.mapOperands (substitute i op) else k) rfl ?_ ?_
  · intro u
    rw [inst?_replaceUses]
    congr 1
    funext inst
    split_ifs <;> rfl
  · intro u k
    split_ifs
    · exact k.targets_mapOperands _
    · rfl

theorem Intact.setAlign (hf : f.Intact) (i : InstId) (a : Nat) :
    ((f.setAlign? i a).getD f).Intact ∧ f.Descends ((f.setAlign? i a).getD f) := by
  cases hset : f.setAlign? i a with
  | none => exact ⟨hf, .refl f⟩
  | some g =>
    simp only [setAlign?, Option.bind_eq_bind, Option.bind_eq_some_iff, Option.pure_def, Option.some.injEq] at hset
    obtain ⟨inst, hi, k, hk, rfl⟩ := hset
    refine hf.recode (fun u k => if u = i then (k.withAlign? a).getD k else k) rfl ?_ ?_
    · intro u
      rw [Option.getD_some, inst?_modifyInst]
      by_cases hu : i = u
      · simp [← hu, hi, hk]
      · simp [hu, Ne.symm hu]
    · intro u k
      split_ifs
      · cases hk : k.withAlign? a with
        | none => rfl
        | some k' => exact InstKind.targets_withAlign? hk
      · rfl

/-! ## 5. Erased instructions -/

theorem Intact.erase (hf : f.Intact) (i : InstId) : (f.erase i).Intact ∧ f.Descends (f.erase i) := by
  have hlive : ∀ {u inst}, (f.erase i).inst? u = some inst → inst.erased = false → u ≠ i ∧ f.inst? u = some inst := by
    intro u inst hu herased
    rw [inst?_erase] at hu
    obtain ⟨old, hold, rfl⟩ := Option.map_eq_some_iff.mp hu
    by_cases hui : u = i
    · simp [hui] at herased
    · rw [if_neg hui]
      exact ⟨hui, hold⟩
  refine ⟨⟨hf.toPlaced.erase i, ?_, ?_⟩, ?_, ?_⟩
  · intro u inst hu herased
    obtain ⟨hui, hold⟩ := hlive hu herased
    exact hf.toPlaced.standsIn_erase.mpr ⟨hui, hf.listed hold herased⟩
  · intro u inst hu herased b hb
    rw [hf.toPlaced.blocks_erase, List.length_map]
    exact hf.targets (hlive hu herased).2 herased b hb
  · refine entries_of_inst? (f.inst?_erase i) fun u inst => ?_
    split_ifs <;> exact ⟨rfl, rfl⟩
  · rw [hf.toPlaced.layout_erase]
    exact List.filter_sublist

/-! ## 6. Dropped blocks -/

variable {keep : List Bool}

/-- What is live after blocks were dropped stood in a block that was kept. -/
theorem Intact.retained (hf : f.Intact) {u : InstId} {inst : Inst} (hu : (f.retainBlocks keep).inst? u = some inst)
    (herased : inst.erased = false) : ∃ old b n, f.inst? u = some old ∧ old.erased = false ∧ f.StandsIn u b ∧
      renumbering keep f.blocks.length b = some n ∧
      inst = { old with block := n, kind := old.kind.moved (renumbering keep f.blocks.length) } := by
  have hmap := hu
  rw [inst?_retainBlocks] at hmap
  obtain ⟨old, hold, hinst⟩ := Option.map_eq_some_iff.mp hmap
  by_cases hdropped : u ∈ f.dropped keep
  · rw [if_pos hdropped] at hinst
    rw [← hinst] at herased
    cases herased
  · rw [if_neg hdropped] at hinst
    cases hlive : old.erased with
    | true =>
      rw [hlive, if_pos rfl] at hinst
      rw [← hinst, hlive] at herased
      cases herased
    | false =>
      have hstands := hf.listed hold hlive
      cases hnumber : renumbering keep f.blocks.length old.block with
      | none => exact absurd (mem_dropped.mpr ⟨_, hstands, hnumber⟩) hdropped
      | some n =>
        rw [hf.toPlaced.inst?_retainBlocks hstands hnumber hold, Option.some.injEq] at hu
        exact ⟨old, old.block, n, hold, hlive, hstands, hnumber, hu.symm⟩

theorem ClosedUnderBranches.kept (hclosed : f.ClosedUnderBranches keep) {u : InstId} {b : BlockId} {k : InstKind}
    (hu : f.StandsIn u b) (hb : keep[b]? = some true) (hk : f.kind? u = some k) :
    ∀ t ∈ k.successors, keep[t]? = some true := by
  obtain ⟨block, hblock, hmem⟩ := hu
  exact hclosed (block, b) (List.mk_mem_zipIdx_iff_getElem?.mpr hblock) hb u hmem k hk

theorem Intact.retainBlocks (hf : f.Intact) (hclosed : f.ClosedUnderBranches keep) :
    (f.retainBlocks keep).Intact ∧ f.Descends (f.retainBlocks keep) := by
  refine ⟨⟨hf.toPlaced.retainBlocks keep, ?_, ?_⟩, ?_, (f.sublist_retainBlocks keep).flatMap _⟩
  · intro u inst hu herased
    obtain ⟨old, b, n, -, -, ⟨block, hblock, hmem⟩, hn, rfl⟩ := hf.retained hu herased
    exact ⟨block, (blocks_retainBlocks hn).trans hblock, hmem⟩
  · intro u inst hu herased t ht
    obtain ⟨old, b, n, hold, hlive, hstands, hn, rfl⟩ := hf.retained hu herased
    have hkept := (isSome_renumbering.mp (by rw [hn]; rfl)).2
    have hsucc : ∀ s ∈ old.kind.successors, (renumbering keep f.blocks.length s).isSome = true := by
      intro s hs
      exact isSome_renumbering.mpr
        ⟨hf.targets hold hlive s (InstKind.successors_subset_targets hs), hclosed.kept hstands hkept (kind?_eq hold) s hs⟩
    obtain ⟨s, hs⟩ := InstKind.exists_of_targets_moved hsucc ht
    have hlt : s < f.blocks.length := (isSome_renumbering.mp (by rw [hs]; rfl)).1
    have hblock := blocks_retainBlocks hs
    rw [List.getElem?_eq_getElem hlt] at hblock
    exact (List.getElem?_eq_some_iff.mp hblock).1
  · refine entries_of_inst? (f.inst?_retainBlocks keep) fun u inst => ?_
    split_ifs <;> exact ⟨rfl, rfl⟩

/-! ## 7. Sequences of changes -/

theorem Intact.edit (hf : f.Intact) {e : Edit} (he : f.Allows e) : (f.edit e).Intact ∧ f.Descends (f.edit e) := by
  cases e with
  | replaceUses i op => exact hf.replaceUses i op
  | erase i => exact hf.erase i
  | setAlign i a => exact hf.setAlign i a
  | retainBlocks keep => exact hf.retainBlocks he

theorem Intact.editAll (hf : f.Intact) {edits : List Edit} (hedits : f.AllowsAll edits) :
    (f.editAll edits).Intact ∧ f.Descends (f.editAll edits) := by
  induction edits generalizing f with
  | nil => exact ⟨hf, .refl f⟩
  | cons e edits ih =>
    obtain ⟨hstep, hdescends⟩ := hf.edit hedits.1
    obtain ⟨hrest, hdescends'⟩ := ih hstep hedits.2
    exact ⟨hrest, hdescends.trans hdescends'⟩

/-- Functions are intact when they are read. -/
theorem intact_of_resolve {items : List Source.Item} {m : Module} (h : Scope.resolve items = .ok m)
    (hf : f ∈ m.functions) : f.Intact := by
  have hdenotes := moduleDenotes_of_checkItems (Scope.resolve_eq_ok.1 h)
  refine Scope.forall_of_forall₂ hdenotes.functions (fun d _ f _ hd => ?_) f hf
  refine ⟨⟨hd.layout ▸ List.nodup_range, ?_⟩, ?_, ?_⟩
  · intro u b hu
    have hlt : u < f.insts.length := by
      rw [← List.mem_range, ← hd.layout]
      exact mem_layout.mpr ⟨b, hu⟩
    have hinst : f.inst? u = some f.insts[u] := List.getElem?_eq_getElem hlt
    exact ⟨_, hinst, ((hd.listed u _ hinst b).mp hu).symm, hd.live _ (List.getElem_mem hlt)⟩
  · intro u inst hinst _
    exact (hd.listed u inst hinst _).mpr rfl
  · intro u inst hinst _ b hb
    have hall : ∀ inst ∈ f.insts, ∀ b ∈ inst.kind.targets, b < f.blocks.length := by
      refine Scope.forall_of_forall₂ hd.insts fun e _ inst _ hinst => ?_
      refine Scope.forall_of_forall₂ hinst.targets fun l _ b _ hlabel => ?_
      obtain ⟨block, hblock, -⟩ := hlabel
      exact (List.getElem?_eq_some_iff.mp hblock).1
    exact hall inst (List.mem_of_getElem? hinst) b hb

/-- When a function is read, its blocks list every instruction. -/
theorem mem_layout_of_resolve {items : List Source.Item} {m : Module} (h : Scope.resolve items = .ok m)
    (hf : f ∈ m.functions) {i : InstId} {inst : Inst} (hi : f.inst? i = some inst) : i ∈ f.layout := by
  have hlayout : f.layout = List.range f.insts.length :=
    Scope.forall_of_forall₂ (moduleDenotes_of_checkItems (Scope.resolve_eq_ok.1 h)).functions
      (fun _ _ _ _ hd => hd.layout) f hf
  rw [hlayout, List.mem_range]
  exact (List.getElem?_eq_some_iff.mp hi).1

/-- **Changes of a function.** After any sequence of changes to a function that was read, of
which none drops a block that a branch of a kept block leads to, block lists and
instructions agree on what stands where, live instructions name blocks that exist, and
instructions have kept numbers, names, types and order. -/
theorem resolved_editAll {items : List Source.Item} {m : Module} (h : Scope.resolve items = .ok m)
    (hf : f ∈ m.functions) {edits : List Edit} (hedits : f.AllowsAll edits) :
    (f.editAll edits).Intact ∧ f.Descends (f.editAll edits) :=
  (intact_of_resolve h hf).editAll hedits

/-- A phi that gets a value from a block that nothing leads to. -/
def staleValue : List Source.Item := [
  .define ⟨.ofName "last", .int 32, [(.int 32, .ofName "x")], none, [
    ⟨.ofName "entry", [⟨none, .br (.ofName "join"), none, ⟨0, 0⟩⟩]⟩,
    ⟨.ofName "side", [⟨none, .br (.ofName "join"), none, ⟨0, 0⟩⟩]⟩,
    ⟨.ofName "join", [
      ⟨some (.ofName "p"), .phi (.int 32) [(.loc (.ofName "x"), .ofName "entry"), (.lit (.int 1), .ofName "side")],
        none, ⟨0, 0⟩⟩,
      ⟨some (.ofName "q"), .alloca (.int 32) none, none, ⟨0, 0⟩⟩,
      ⟨none, .ret (some ⟨.int 32, .loc (.ofName "p")⟩), none, ⟨0, 0⟩⟩]⟩], ⟨0, 0⟩⟩]

/-- The block is dropped, and the phi gives way to its only value. -/
def straighten : List Edit := [.setAlign 3 8, .retainBlocks [true, false, true], .replaceUses 2 (.arg 0), .erase 2]

theorem resolved_editAll_staleValue : ∃ m f, Scope.resolve staleValue = .ok m ∧ f ∈ m.functions ∧ f.AllowsAll straighten ∧
    (f.editAll straighten).layout = [0, 3, 4] ∧ (f.editAll straighten).Intact ∧ f.Descends (f.editAll straighten) := by
  have hallows : ∀ f : Function, (f.edit (.setAlign 3 8)).ClosedUnderBranches [true, false, true] →
      f.AllowsAll straighten := fun f h => ⟨trivial, h, trivial, trivial, trivial⟩
  have hread : ∃ m f, Scope.resolve staleValue = .ok m ∧ f ∈ m.functions ∧ f.AllowsAll straighten ∧
      (f.editAll straighten).layout = [0, 3, 4] :=
    ⟨_, _, rfl, List.mem_singleton_self _, hallows _ (by decide), rfl⟩
  obtain ⟨m, f, hm, hf, hedits, hlayout⟩ := hread
  exact ⟨m, f, hm, hf, hedits, hlayout, resolved_editAll hm hf hedits⟩

end Function

end RangedIR
