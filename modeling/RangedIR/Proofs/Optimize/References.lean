/-
RangedIR.Proofs.Optimize.References — rewriting leaves no dangling reference.

An instruction refers to other instructions by its operands and to blocks by its branches
and the values of its phis. Instructions are taken out, blocks are removed and the
remaining ones get new numbers; what stays refers to what stays, and to the blocks that it
referred to before.
-/
import RangedIR.Proofs.Optimize.Refinement

namespace RangedIR

/-! ## 1. Labels -/

/-- The blocks that an instruction names, in the order in which they are written. -/
def InstKind.namedBlocks : InstKind → List BlockId
  | .br b => [b]
  | .condBr _ t e => [t, e]
  | .phi incoming => incoming.map Prod.snd
  | _ => []

namespace InstKind

variable {k k' : InstKind}

@[simp] theorem namedBlocks_mapOperands (g : Operand → Operand) :
    (k.mapOperands g).namedBlocks = k.namedBlocks := by
  cases k with
  | phi incoming => simp [mapOperands, namedBlocks, Function.comp_def]
  | _ => rfl

theorem namedBlocks_of_isTerminator (hk : k.isTerminator = true) : k.namedBlocks = k.successors := by
  cases k with
  | br | condBr | ret => rfl
  | _ => cases hk

/-- A change in place drops names and adds none. -/
theorem Change.namedBlocks_sublist {comes : BlockId → Prop} (h : Change comes k k') :
    k'.namedBlocks.Sublist k.namedBlocks := by
  cases h with
  | same | mirroredInt | mirroredFloat => exact .refl _
  | decided c t e =>
    simp only [namedBlocks]
    split_ifs
    · exact .cons _ (.refl _)
    · exact .cons_cons _ (List.nil_sublist _)
  | joined cond t => exact .cons _ (.refl _)
  | narrowed incoming keep _ => exact List.filter_sublist.map _

end InstKind

namespace Function

/-- The labels of the blocks that an instruction names; none for a block that does not
exist. -/
def labels (f : Function) (k : InstKind) : List (Option String) :=
  k.namedBlocks.map fun b => (f.blocks[b]?).map (·.label)

/-- Every live instruction of the second function is one of the first, and the blocks that
it names have labels that it named there, in the same order. -/
structure Cites (f g : Function) : Prop where
  listed : g.layout ⊆ f.layout
  labels : ∀ {u : InstId} {k' : InstKind}, u ∈ g.layout → g.kind? u = some k' →
    ∃ k, f.kind? u = some k ∧ (g.labels k').Sublist (f.labels k)

namespace Cites

variable {f g h : Function}

theorem refl (f : Function) : f.Cites f := ⟨List.Subset.refl _, fun _ hk => ⟨_, hk, .refl _⟩⟩

theorem trans (hfg : f.Cites g) (hgh : g.Cites h) : f.Cites h where
  listed := List.Subset.trans hgh.listed hfg.listed
  labels {u k₃} hu hk₃ := by
    obtain ⟨k₂, hk₂, hsub⟩ := hgh.labels hu hk₃
    obtain ⟨k₁, hk₁, hsub'⟩ := hfg.labels (hgh.listed hu) hk₂
    exact ⟨k₁, hk₁, hsub.trans hsub'⟩

end Cites

/-! ## 2. Changes of functions -/

theorem Peephole.cites {f g : Function} (h : f.Peephole g) (hf : f.Arranged) : f.Cites g where
  listed := by rw [h.layout_eq]; exact List.Subset.refl _
  labels {u k'} hu hk' := by
    rw [h.layout_eq] at hu
    obtain ⟨b, hb⟩ := mem_layout.mp hu
    obtain ⟨k, hk, hchange⟩ := h.kind?_back hf.toPlaced hb hk'
    refine ⟨k, hk, ?_⟩
    unfold Function.labels
    rw [h.blocks]
    exact hchange.namedBlocks_sublist.map _

theorem cites_replaceBy {f : Function} {i : InstId} (hf : f.Placed) (op : Operand) : f.Cites (f.replaceBy i op) where
  listed u hu := ((mem_layout_replaceBy hf).mp hu).2
  labels {u k'} hu hk' := by
    obtain ⟨hne, hu⟩ := (mem_layout_replaceBy hf).mp hu
    rw [kind?_replaceBy op hu hne] at hk'
    obtain ⟨k, hk, rfl⟩ := Option.map_eq_some_iff.mp hk'
    refine ⟨k, hk, ?_⟩
    have hlabel : ∀ c : BlockId, ((f.replaceBy i op).blocks[c]?).map (·.label) = (f.blocks[c]?).map (·.label) := by
      intro c
      rw [blocks_replaceBy hf, Option.map_map]
      rfl
    unfold Function.labels
    simp only [InstKind.namedBlocks_mapOperands, hlabel]
    exact .refl _

namespace Renumbered

variable {f g : Function} {number : BlockId → Option BlockId} (h : f.Renumbered g number)

include h

theorem label_eq {b n : BlockId} (hb : number b = some n) :
    (g.blocks[n]?).map (·.label) = (f.blocks[b]?).map (·.label) := by rw [h.blocks hb]

/-- A branch in a block that is reached leads to a block that is reached, or to none. -/
theorem label_successor {b t : BlockId} (hb : f.Reached none b) (ht : t ∈ f.successors b) :
    (g.blocks[(number t).getD t]?).map (·.label) = (f.blocks[t]?).map (·.label) := by
  by_cases hlt : t < f.blocks.length
  · obtain ⟨n, hn⟩ := h.exists_number (hb.step ht hlt (by simp))
    rw [hn, Option.getD_some, h.label_eq hn]
  · have hnone : number t = none := by
      cases hn : number t with
      | none => rfl
      | some n => exact absurd (h.reached hn).lt hlt
    have hle : g.blocks.length ≤ t := h.sublist.length_le.trans (Nat.le_of_not_lt hlt)
    rw [hnone, Option.getD_none, List.getElem?_eq_none hle, List.getElem?_eq_none (Nat.le_of_not_lt hlt)]

theorem cites (hf : f.Arranged) : f.Cites g where
  listed u hu := by
    obtain ⟨n, hn⟩ := mem_layout.mp hu
    obtain ⟨b, -, hb⟩ := h.standsIn_back hn
    exact mem_layout.mpr ⟨b, hb⟩
  labels {u k'} hu hk' := by
    obtain ⟨n, hn⟩ := mem_layout.mp hu
    obtain ⟨b, hnum, hb⟩ := h.standsIn_back hn
    obtain ⟨k, hk, rfl⟩ := h.kind?_back hf.toPlaced hb hnum hk'
    refine ⟨k, hk, ?_⟩
    unfold Function.labels
    cases hterm : k.isTerminator with
    | true =>
      obtain ⟨block, hblock, hmem⟩ := hb
      obtain ⟨done, rest, hsplit⟩ := List.append_of_mem hmem
      obtain ⟨-, -, hsucc⟩ := hf.eq_terminator hblock hsplit hk hterm
      rw [InstKind.namedBlocks_of_isTerminator (by simpa using hterm), InstKind.namedBlocks_of_isTerminator hterm,
        InstKind.successors_moved, List.map_map]
      have hsame : k.successors.map ((fun b => (g.blocks[b]?).map (·.label)) ∘ fun b => (number b).getD b) =
          k.successors.map fun b => (f.blocks[b]?).map (·.label) :=
        List.map_congr_left fun t ht => h.label_successor (h.reached hnum) (hsucc ▸ ht)
      rw [hsame]
    | false =>
      cases k with
      | br | condBr | ret => cases hterm
      | phi incoming =>
        -- the values of the blocks that remain
        have hsame : (incoming.filter fun e => (number e.2).isSome).map
              (fun e => (g.blocks[(number e.2).getD e.2]?).map (·.label)) =
            (incoming.filter fun e => (number e.2).isSome).map fun e => (f.blocks[e.2]?).map (·.label) := by
          refine List.map_congr_left fun e he => ?_
          obtain ⟨m, hm⟩ := Option.isSome_iff_exists.mp (List.mem_filter.mp he).2
          rw [hm, Option.getD_some, h.label_eq hm]
        simp only [InstKind.moved, InstKind.filterIncoming, InstKind.mapBlocks, InstKind.namedBlocks, List.map_map,
          Function.comp_def]
        rw [hsame]
        exact List.filter_sublist.map _
      | _ => exact .refl _

end Renumbered

/-! ## 3. Operands -/

/-- Every instruction that a live instruction has among its operands is live. -/
def OperandsListed (f : Function) : Prop :=
  ∀ (u j : InstId) (k : InstKind), u ∈ f.layout → f.kind? u = some k → .inst j ∈ k.operands → j ∈ f.layout

theorem Dominated.operandsListed {f : Function} (hf : f.Dominated) : f.OperandsListed := by
  intro u j k hu hk hj
  obtain ⟨b, block, hb, hmem⟩ := mem_layout.mp hu
  have hused : ∃ c, f.UsedIn j c := by
    cases k with
    | phi incoming =>
      obtain ⟨⟨op, p⟩, he, rfl⟩ := List.mem_map.mp hj
      exact ⟨p, .phi hu hk he⟩
    | _ => exact ⟨b, .plain hb hmem hk (fun _ h => by cases h) hj⟩
  obtain ⟨c, hc⟩ := hused
  obtain ⟨d, hd, -⟩ := hf.dominated hc
  exact mem_layout.mpr ⟨d, hd⟩

/-- Replacing an instruction by a literal or by another live one leaves none of its uses. -/
theorem OperandsListed.replaceBy {f : Function} {i : InstId} {b : BlockId} {op : Operand} (h : f.OperandsListed)
    (hf : f.Arranged) (hi : f.StandsIn i b) (hop : op ≠ .inst i) (hlisted : ∀ j, op = .inst j → j ∈ f.layout) :
    (f.replaceBy i op).OperandsListed := by
  intro u j k hu hk hj
  obtain ⟨hne, hu⟩ := (mem_layout_replaceBy hf.toPlaced).mp hu
  rw [kind?_replaceBy op hu hne] at hk
  obtain ⟨old, hold, rfl⟩ := Option.map_eq_some_iff.mp hk
  rw [InstKind.operands_mapOperands] at hj
  obtain ⟨x, hx, hxj⟩ := List.mem_map.mp hj
  rw [mem_layout_replaceBy hf.toPlaced]
  unfold substitute at hxj
  split_ifs at hxj with hxi
  · refine ⟨?_, hlisted j hxj⟩
    rintro rfl
    exact hop hxj
  · subst hxj
    refine ⟨?_, h u j old hu hold hx⟩
    rintro rfl
    exact hxi rfl

/-! ## 4. Passes -/

/-- A function in order, made from another, whose operands are live. -/
structure Sound (f g : Function) : Prop where
  arranged : g.Arranged
  operands : g.OperandsListed
  cites : f.Cites g

section Passes

variable {f g : Function} {id : FuncId} {b : Bounds}

theorem Sound.replaceBy (h : f.Sound g) {i : InstId} {b : BlockId} (hi : g.StandsIn i b) {op : Operand}
    (hnot : ∀ k, g.kind? i = some k → k.isTerminator = false) (hop : op ≠ .inst i)
    (hlisted : ∀ j, op = .inst j → j ∈ g.layout) : f.Sound (g.replaceBy i op) where
  arranged := arranged_replaceBy h.arranged op hnot
  operands := h.operands.replaceBy h.arranged hi hop hlisted
  cites := h.cites.trans (cites_replaceBy h.arranged.toPlaced op)

theorem not_isTerminator_of_decided {i : InstId} {k : InstKind} {lookup : Operand → Option Bound} {t : Bool}
    (hk : g.kind? i = some k) (ht : k.outcome? lookup = some t) :
    ∀ k', g.kind? i = some k' → k'.isTerminator = false := by
  intro k' hk'
  cases hk.symm.trans hk'
  cases k with
  | br | condBr | ret => cases ht
  | _ => rfl

variable {P : Function → Prop}

/-- What mirrored and replaced comparisons keep is kept when all are folded. -/
theorem foldCompares_invariant {id : FuncId} {table : Bounds}
    (hmirror : ∀ g i, P g → P (g.modifyInst i fun inst => { inst with kind := inst.kind.literalRight }))
    (hreplace : ∀ g i k t, P g → g.kind? i = some k → k.outcome? (table.operand? id) = some t →
      P (g.replaceBy i (.const (.bool t)))) (ids : List InstId) :
    ∀ g, P g → P (foldCompares id table ids g).1 := by
  induction ids with
  | nil => exact fun g hg => hg
  | cons i rest ih =>
    intro g hg
    unfold foldCompares
    dsimp only
    split
    next t ht =>
      obtain ⟨k, hk, ht⟩ := Option.bind_eq_some_iff.mp ht
      exact ih _ (hreplace _ i k t (hmirror g i hg) hk ht)
    next => exact ih _ (hmirror g i hg)

theorem foldBranches_invariant (hfold : ∀ g b, P g → P (g.foldBranch b).1)
    (bs : List BlockId) : ∀ g, P g → P (foldBranches bs g).1 := by
  induction bs with
  | nil => exact fun g hg => hg
  | cons b rest ih => exact fun g hg => ih _ (hfold g b hg)

/-- What is kept when a phi gives way to its only value is kept when all such phis do. -/
theorem collapsePhis_invariant
    (hreplace : ∀ g i op p, P g → g.kind? i = some (.phi [(op, p)]) → op ≠ .inst i → P (g.replaceBy i op))
    (ids : List InstId) : ∀ g, P g → P (collapsePhis ids g).1 := by
  intro g hg
  rw [collapsePhis_fst]
  refine replaceEach_induction (P := fun _ => P) (fun _ _ _ hg => hg) (fun g i _ op hg hop => ?_) ids g hg
  obtain ⟨p, hk, hne⟩ := phi_of_onlyValue? hop
  exact hreplace g i op p hg hk hne

theorem dominated_foldCompares (id : FuncId) (b : Bounds) (hf : f.Dominated) : (foldCompares id b f.layout f).1.Dominated ∧
    f.Cites (foldCompares id b f.layout f).1 := by
  refine foldCompares_invariant (P := fun g => g.Dominated ∧ f.Cites g) ?_ ?_ _ f ⟨hf, .refl f⟩
  · rintro g i ⟨hg, hcites⟩
    have hpeep := g.peephole_literalRight i
    exact ⟨hpeep.dominated hg, hcites.trans (hpeep.cites hg.toArranged)⟩
  · rintro g i k t ⟨hg, hcites⟩ hk ht
    exact ⟨dominated_replaceBy hg (not_isTerminator_of_decided hk ht) (by simp) (fun j b h => by cases h),
      hcites.trans (cites_replaceBy hg.toPlaced _)⟩

theorem dominated_foldBranches (bs : List BlockId) (hg : g.Dominated) (hcites : f.Cites g) :
    (foldBranches bs g).1.Dominated ∧ f.Cites (foldBranches bs g).1 := by
  refine foldBranches_invariant (P := fun g => g.Dominated ∧ f.Cites g) ?_ bs g ⟨hg, hcites⟩
  rintro g b ⟨hg, hcites⟩
  have hpeep := g.peephole_foldBranch b
  exact ⟨hpeep.dominated hg, hcites.trans (hpeep.cites hg.toArranged)⟩

theorem dominated_removeUnreachable (hg : g.Dominated) (hcites : f.Cites g) :
    g.removeUnreachable.1.Dominated ∧ f.Cites g.removeUnreachable.1 := by
  unfold removeUnreachable
  dsimp only
  split_ifs
  · exact ⟨hg, hcites⟩
  · have hmoved := renumbered_retainBlocks hg.toPlaced
    exact ⟨hmoved.dominated hg, hcites.trans (hmoved.cites hg.toArranged)⟩

theorem dominated_straightened (id : FuncId) (b : Bounds) (hf : f.Dominated) :
    (Machine.straightened (foldCompares id b f.layout f).1).Dominated ∧
      f.Cites (Machine.straightened (foldCompares id b f.layout f).1) := by
  obtain ⟨hf₁, hcites₁⟩ := dominated_foldCompares id b hf
  obtain ⟨hf₂, hcites₂⟩ := dominated_foldBranches (List.range (foldCompares id b f.layout f).1.blocks.length) hf₁ hcites₁
  have hpeep := peephole_dropStaleIncoming hf₂.toPlaced
  exact dominated_removeUnreachable (hpeep.dominated hf₂) (hcites₂.trans (hpeep.cites hf₂.toArranged))

/-- A phi with one value is replaced by an operand of its own, which is live. -/
theorem sound_collapsePhis (ids : List InstId) : ∀ g : Function, ids.Nodup →
    (∀ i ∈ ids, ∃ b, g.StandsIn i b) → f.Sound g → f.Sound (collapsePhis ids g).1 := by
  intro g hnodup hids hg
  rw [collapsePhis_fst]
  refine replaceEach_standing (fun g hg => hg.arranged.toPlaced) (fun g i c op hg hi hop => ?_) ids g hnodup hids hg
  obtain ⟨p, hk, hne⟩ := phi_of_onlyValue? hop
  refine hg.replaceBy hi ?_ hne ?_
  · intro k hk'
    rw [hk] at hk'
    cases hk'
    rfl
  · rintro j rfl
    exact hg.operands i j _ (mem_layout.mpr ⟨c, hi⟩) hk List.mem_cons_self

theorem sound_substituteIn (ids : List InstId) : ∀ g : Function, ids.Nodup →
    (∀ i ∈ ids, ∃ b, g.StandsIn i b) → f.Sound g → f.Sound (substituteIn id b ids g).1 := by
  intro g hnodup hids hg
  rw [substituteIn_fst]
  refine replaceEach_standing (fun g hg => hg.arranged.toPlaced) (fun g i c op hg hi hop => ?_) ids g hnodup hids hg
  obtain ⟨k, hk, rfl⟩ := Option.map_eq_some_iff.mp hop
  exact hg.replaceBy hi (isTerminator_of_literalResult? hk) (by simp) (by simp)

theorem Sound.overLayout (h : f.Sound g) (pass : List InstId → Function → Function)
    (hpass : ∀ ids g, ids.Nodup → (∀ i ∈ ids, ∃ b, g.StandsIn i b) → f.Sound g → f.Sound (pass ids g)) :
    f.Sound (pass g.layout g) :=
  hpass g.layout g h.arranged.nodup (fun _ hi => mem_layout.mp hi) h

end Passes

/-- Labels taken from blocks that exist are labels of blocks that exist. -/
theorem lt_of_labels {f g : Function} {k k' : InstKind} (h : (g.labels k').Sublist (f.labels k))
    (hk : ∀ b ∈ k.namedBlocks, b < f.blocks.length) : ∀ b ∈ k'.namedBlocks, b < g.blocks.length := by
  intro b hb
  obtain ⟨c, hc, hlabel⟩ := List.mem_map.mp (h.subset (List.mem_map.mpr ⟨b, hb, rfl⟩))
  by_contra hge
  rw [List.getElem?_eq_none (Nat.le_of_not_lt hge), List.getElem?_eq_getElem (hk c hc)] at hlabel
  cases hlabel

/-- Simplifying the control flow and replacing arithmetic by literals leaves no dangling
reference, whatever the table says: in the function that results, every live instruction
exists and has live operands only, and every block that it names exists and has the label
of a block that the instruction named before. -/
theorem rewritten_references_live {f : Function} (hf : f.Dominated)
    (hblocks : ∀ u ∈ f.layout, ∀ k, f.kind? u = some k → ∀ b ∈ k.namedBlocks, b < f.blocks.length)
    (id : FuncId) (table : Bounds) :
    let g := ((f.simplifyControlFlow id table).1.substituteConstants id table).1
    ∀ u ∈ g.layout, ∃ inst, g.inst? u = some inst ∧ inst.erased = false ∧
      (∀ j, .inst j ∈ inst.kind.operands →
        j ∈ g.layout ∧ ∃ used, g.inst? j = some used ∧ used.erased = false) ∧
      (∀ b ∈ inst.kind.namedBlocks, b < g.blocks.length) ∧
      ∃ k, f.kind? u = some k ∧ (g.labels inst.kind).Sublist (f.labels k) := by
  obtain ⟨hsimple, hcites⟩ := dominated_straightened id table hf
  have hphis : f.Sound (f.simplifyControlFlow id table).1 := by
    rw [Machine.simplifyControlFlow_fst]
    exact (Sound.mk hsimple.toArranged hsimple.operandsListed hcites).overLayout (fun ids g => (collapsePhis ids g).1)
      sound_collapsePhis
  have hsound : f.Sound ((f.simplifyControlFlow id table).1.substituteConstants id table).1 :=
    hphis.overLayout (fun ids g => (substituteIn id table ids g).1) sound_substituteIn
  intro g u hu
  have hlive : ∀ v ∈ g.layout, ∃ inst, g.inst? v = some inst ∧ inst.erased = false := by
    intro v hv
    obtain ⟨b, hb⟩ := mem_layout.mp hv
    obtain ⟨inst, hinst, -, herased⟩ := hsound.arranged.placed hb
    exact ⟨inst, hinst, herased⟩
  obtain ⟨inst, hinst, herased⟩ := hlive u hu
  obtain ⟨k, hk, hlabels⟩ := hsound.cites.labels hu (kind?_eq hinst)
  refine ⟨inst, hinst, herased, fun j hj => ?_, fun b hb => ?_, k, hk, hlabels⟩
  · have hmem := hsound.operands u j _ hu (kind?_eq hinst) hj
    exact ⟨hmem, hlive j hmem⟩
  · exact lt_of_labels hlabels (hblocks u (hsound.cites.listed hu) k hk) b hb

/-! ## 5. An example -/

/-- A function with a way around its last block that is never taken. -/
def detour : Function where
  name := "detour"
  retTy := .int 32
  params := [⟨"x", .int 32⟩]
  rangeType := none
  blocks := [⟨"entry", [0, 1]⟩, ⟨"around", [2]⟩, ⟨"last", [3, 4, 5]⟩]
  insts :=
    [⟨some "c", .icmp .slt (.int 32) (.arg 0) (.const (.int 10)), .int 1, none, 0, false⟩,
      ⟨none, .condBr (.inst 0) 2 1, .void, none, 0, false⟩,
      ⟨none, .br 2, .void, none, 1, false⟩,
      ⟨some "p", .phi [(.arg 0, 0), (.inst 0, 1)], .int 32, none, 2, false⟩,
      ⟨some "s", .binary .add (.inst 3) (.const (.int 1)), .int 32, none, 2, false⟩,
      ⟨none, .ret (some (.int 32, .inst 4)), .void, none, 2, false⟩]

/-- The argument is three, and the sum four. -/
def detourBounds : Bounds :=
  ((Bounds.ofSeeds .empty).insert (.arg 0 0) (.singleton 3.0)).insert (.inst 0 4) (.singleton 4.0)

/-- The block in the middle is gone and the last one has its number; the branch still
names it. -/
theorem rewritten_references_live_detour :
    detour.Dominated ∧
    (((detour.simplifyControlFlow 0 detourBounds).1.substituteConstants 0 detourBounds).1.blocks =
      [⟨"entry", [1]⟩, ⟨"last", [5]⟩]) ∧
    ∃ inst, ((detour.simplifyControlFlow 0 detourBounds).1.substituteConstants 0 detourBounds).1.inst? 1 = some inst ∧
      inst.erased = false ∧
      (((detour.simplifyControlFlow 0 detourBounds).1.substituteConstants 0 detourBounds).1.labels inst.kind).Sublist
        [some "last", some "around"] := by
  have hf : detour.Dominated := (wellFormed_of_isWellFormed (by decide)).toDominated
  have hblocks : ∀ u ∈ detour.layout, ∀ k, detour.kind? u = some k → ∀ b ∈ k.namedBlocks, b < detour.blocks.length := by
    intro u hu k hk
    have hu : u ∈ [0, 1, 2, 3, 4, 5] := hu
    simp only [List.mem_cons, List.not_mem_nil, or_false] at hu
    rcases hu with rfl | rfl | rfl | rfl | rfl | rfl <;> cases hk <;> decide
  have hresult : ((detour.simplifyControlFlow 0 detourBounds).1.substituteConstants 0 detourBounds).1.blocks =
      [⟨"entry", [1]⟩, ⟨"last", [5]⟩] := by decide
  obtain ⟨inst, hinst, herased, -, -, k, hk, hlabels⟩ := rewritten_references_live hf hblocks 0 detourBounds 1
    (mem_layout.mpr ⟨0, ⟨"entry", [1]⟩, by rw [hresult]; rfl, List.mem_cons_self⟩)
  cases hk
  exact ⟨hf, hresult, inst, hinst, herased, hlabels⟩

end Function

end RangedIR
