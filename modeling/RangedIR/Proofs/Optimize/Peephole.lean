/-
RangedIR.Proofs.Optimize.Peephole — instructions that are changed where they stand.

A comparison is mirrored, a branch that can lead to one block only becomes a jump, and
a phi loses the values of blocks that do not lead to it. None of the three changes what
an execution does, and none needs anything to be known about values.
-/
import RangedIR.Proofs.Semantics.Lawful

namespace RangedIR

open Number InstKind

/-! ## 1. Changes -/

/-- The changes made to an instruction in its place. A phi keeps the values of all blocks
that its block `comes` from. -/
inductive InstKind.Change (comes : BlockId → Prop) : InstKind → InstKind → Prop
  | same (k : InstKind) : Change comes k k
  | mirroredInt (p : IntPredicate) (ty : Ty) (lhs rhs : Operand) :
      Change comes (.icmp p ty lhs rhs) (.icmp p.swapped ty rhs lhs)
  | mirroredFloat (p : FloatPredicate) (ty : Ty) (lhs rhs : Operand) :
      Change comes (.fcmp p ty lhs rhs) (.fcmp p.swapped ty rhs lhs)
  | decided (c : Constant) (t e : BlockId) :
      Change comes (.condBr (.const c) t e) (.br (if c.value == 0.0 then e else t))
  | joined (cond : Operand) (t : BlockId) : Change comes (.condBr cond t t) (.br t)
  | narrowed (incoming : List (Operand × BlockId)) (keep : BlockId → Bool) :
      (∀ p, comes p → keep p = true) →
      Change comes (.phi incoming) (.phi (incoming.filter fun e => keep e.2))

namespace InstKind.Change

variable {comes : BlockId → Prop} {k k' : InstKind}

theorem isTerminator (h : Change comes k k') : k'.isTerminator = k.isTerminator := by
  cases h <;> rfl

theorem isBinary (h : Change comes k k') (hk : k'.isBinary = true) : k' = k := by
  cases h with
  | same => rfl
  | _ => cases hk

theorem isCompare (h : Change comes k k') : k'.isCompare = k.isCompare := by
  cases h <;> rfl

theorem successors (h : Change comes k k') : k'.successors ⊆ k.successors := by
  cases h with
  | decided c t e => split_ifs <;> simp [successors]
  | joined => simp [successors]
  | _ => exact List.Subset.refl _

theorem operands (h : Change comes k k') : k'.operands ⊆ k.operands := by
  cases h with
  | same => exact List.Subset.refl _
  | mirroredInt | mirroredFloat => simp [operands]
  | decided | joined => exact List.nil_subset _
  | narrowed incoming keep _ => exact List.map_subset _ (List.filter_subset_self _)

variable {incoming : List (Operand × BlockId)}

/-- A phi becomes a phi, with fewer values. -/
theorem of_phi (h : Change comes (.phi incoming) k') :
    ∃ keep : BlockId → Bool, (∀ p, comes p → keep p = true) ∧
      k' = .phi (incoming.filter fun e => keep e.2) := by
  cases h with
  | same => exact ⟨fun _ => true, fun _ _ => rfl, by simp⟩
  | narrowed _ keep hkeep => exact ⟨keep, hkeep, rfl⟩

theorem to_phi (h : Change comes k (.phi incoming)) :
    ∃ old, k = .phi old := by
  cases h with
  | same => exact ⟨incoming, rfl⟩
  | narrowed old _ _ => exact ⟨old, rfl⟩

end InstKind.Change

/-! ## 2. Functions changed in place -/

namespace Function

/-- A function with instructions changed in their places. -/
structure Peephole (f g : Function) : Prop where
  blocks : g.blocks = f.blocks
  change : ∀ {u : InstId} {b : BlockId} {inst : Inst}, f.StandsIn u b → f.inst? u = some inst →
    ∃ k, g.inst? u = some { inst with kind := k } ∧ InstKind.Change (fun p => b ∈ f.successors p) inst.kind k

namespace Peephole

variable {f g : Function} (h : f.Peephole g)

include h

variable {b : BlockId} {u : InstId}

theorem standsIn : g.StandsIn u b ↔ f.StandsIn u b := by
  unfold StandsIn
  rw [h.blocks]

theorem layout_eq : g.layout = f.layout := by
  unfold layout
  rw [h.blocks]

theorem kind? (hu : f.StandsIn u b) {k : InstKind} (hk : f.kind? u = some k) :
    ∃ k', g.kind? u = some k' ∧ InstKind.Change (fun p => b ∈ f.successors p) k k' := by
  obtain ⟨inst, hinst, rfl⟩ := Option.map_eq_some_iff.mp hk
  obtain ⟨k', hk', hchange⟩ := h.change hu hinst
  exact ⟨k', kind?_eq hk', hchange⟩

/-- What stands in the changed function is the change of what stood there. -/
theorem kind?_back (hf : f.Placed) (hu : f.StandsIn u b) {k' : InstKind} (hk' : g.kind? u = some k') :
    ∃ k, f.kind? u = some k ∧ InstKind.Change (fun p => b ∈ f.successors p) k k' := by
  obtain ⟨inst, hinst, -⟩ := hf.placed hu
  obtain ⟨k'', hk'', hchange⟩ := h.kind? hu (kind?_eq hinst)
  rw [hk'] at hk''
  cases hk''
  exact ⟨inst.kind, kind?_eq hinst, hchange⟩

theorem placed (hf : f.Placed) : g.Placed where
  nodup := by
    rw [h.layout_eq]
    exact hf.nodup
  placed hu := by
    rw [h.standsIn] at hu
    obtain ⟨inst, hinst, hblock, herased⟩ := hf.placed hu
    obtain ⟨k, hk, -⟩ := h.change hu hinst
    exact ⟨_, hk, hblock, herased⟩

theorem ended (hf : f.Ended) : g.Ended := by
  intro block hblock t ht
  rw [h.blocks] at hblock
  obtain ⟨b, hb⟩ := List.mem_iff_getElem?.mp hblock
  obtain ⟨k, hk, hterm⟩ := hf block hblock t ht
  obtain ⟨k', hk', hchange⟩ := h.kind? ⟨block, hb, List.mem_of_getLast? ht⟩ hk
  exact ⟨k', hk', hchange.isTerminator.trans hterm⟩

variable (hf : f.Arranged)

include hf

theorem successors_subset (b : BlockId) : g.successors b ⊆ f.successors b := by
  cases hb : f.blocks[b]? with
  | none =>
    have hb' : g.blocks[b]? = none := by rw [h.blocks, hb]
    have : g.successors b = [] := by simp [successors, terminator?, hb']
    rw [this]
    exact List.nil_subset _
  | some block =>
    obtain ⟨body, t, k, hinsts, hk, hterm, -, hsucc, -⟩ := hf.terminator?_eq hb
    obtain ⟨k', hk', hchange⟩ := h.kind? ⟨block, hb, by simp [hinsts]⟩ hk
    have hlast : block.insts.getLast? = some t := by simp [hinsts]
    have ht' : g.terminator? b = some t := by
      simp [terminator?, h.blocks, hb, hlast, hk', hchange.isTerminator, hterm]
    have hsucc' : g.successors b = k'.successors := by simp [successors, ht', hk']
    rw [hsucc, hsucc']
    exact hchange.successors

theorem reached {avoid : Option BlockId} (hb : g.Reached avoid b) : f.Reached avoid b := by
  induction hb with
  | entry h0 hne => exact .entry (h.blocks ▸ h0) hne
  | step _ hsucc hlt hne ih => exact ih.step (h.successors_subset hf _ hsucc) (h.blocks ▸ hlt) hne

theorem usedIn {j : InstId} (hj : g.UsedIn j b) : f.UsedIn j b := by
  cases hj with
  | @plain _ block u k hb hu hk hphi hmem =>
    rw [h.blocks] at hb
    obtain ⟨old, hold, hchange⟩ := h.kind?_back hf.toPlaced ⟨block, hb, hu⟩ hk
    refine .plain hb hu hold ?_ (hchange.operands hmem)
    rintro incoming rfl
    obtain ⟨_, _, rfl⟩ := hchange.of_phi
    exact hphi _ rfl
  | @phi u incoming _ hu hk hmem =>
    rw [h.layout_eq] at hu
    obtain ⟨b, hb⟩ := mem_layout.mp hu
    obtain ⟨old, hold, hchange⟩ := h.kind?_back hf.toPlaced hb hk
    obtain ⟨incoming', rfl⟩ := hchange.to_phi
    obtain ⟨keep, -, heq⟩ := hchange.of_phi
    cases heq
    exact .phi hu hold (List.mem_of_mem_filter hmem)

theorem arranged : g.Arranged where
  toPlaced := h.placed hf.toPlaced
  ends {b block} hb := by
    rw [h.blocks] at hb
    obtain ⟨body, t, k, hinsts, hk, hterm, hbody⟩ := hf.ends hb
    obtain ⟨k', hk', hchange⟩ := h.kind? ⟨block, hb, by simp [hinsts]⟩ hk
    refine ⟨body, t, k', hinsts, hk', by rw [hchange.isTerminator, hterm], ?_⟩
    intro i hi ki hki
    obtain ⟨old, hold, hchange⟩ := h.kind?_back hf.toPlaced ⟨block, hb, by simp [hinsts, hi]⟩ hki
    rw [hchange.isTerminator]
    exact hbody i hi old hold

omit hf in
theorem dominated (hf : f.Dominated) : g.Dominated where
  toArranged := h.arranged hf.toArranged
  dominated hj := by
    obtain ⟨d, hd, hreach⟩ := hf.dominated (h.usedIn hf.toArranged hj)
    exact ⟨d, h.standsIn.mpr hd, fun hr => hreach (h.reached hf.toArranged hr)⟩

omit hf in
theorem wellFormed (hf : f.WellFormed) : g.WellFormed where
  toDominated := h.dominated hf.toDominated
  covered {i b incoming} hi hk p hp := by
    rw [h.standsIn] at hi
    obtain ⟨old, hold, hchange⟩ := h.kind?_back hf.toPlaced hi hk
    obtain ⟨incoming', rfl⟩ := hchange.to_phi
    obtain ⟨keep, hkeep, heq⟩ := hchange.of_phi
    cases heq
    have hp := h.successors_subset hf.toArranged p hp
    obtain ⟨op, hop⟩ := hf.covered hi hold p hp
    exact ⟨op, List.mem_filter.mpr ⟨hop, hkeep p hp⟩⟩

end Peephole

end Function

/-! ## 3. Executions -/

namespace Machine

variable {V W : Type} {M : Machine V W} {args : List V} {f g : Function}

variable {env : InstId → Option V}

/-- A phi that lost values of other blocks has the same value on the way in. -/
theorem phiValue?_filter {p : BlockId} {keep : BlockId → Bool} (hkeep : keep p = true)
    (incoming : List (Operand × BlockId)) :
    M.phiValue? args env (some p) (incoming.filter fun e => keep e.2) = M.phiValue? args env (some p) incoming := by
  unfold phiValue?
  rw [List.find?_filter]
  congr 2
  funext e
  by_cases he : e.2 = p
  · simp [he, hkeep]
  · simp [Ne.symm he]

variable {comes : BlockId → Prop} {b : BlockId} {id : FuncId}

/-- What a changed instruction computes. -/
theorem Lawful.perform_change (hM : M.Lawful) {inst : Inst} {k : InstKind}
    (hchange : InstKind.Change comes inst.kind k) (hplain : inst.kind.isPlain = true)
    {values : List V} (hvalues : inst.kind.operands.mapM (M.eval args env) = some values)
    (u : InstId) (world : W) :
    ∃ values', k.operands.mapM (M.eval args env) = some values' ∧ k.isPlain = true ∧
      M.perform u { inst with kind := k } values' world = M.perform u inst values world ∧
      k.events values' = inst.kind.events values := by
  obtain ⟨name, kind, ty, dbg, block, erased⟩ := inst
  dsimp only at hchange hplain hvalues ⊢
  cases hchange with
  | same => exact ⟨values, hvalues, hplain, rfl, rfl⟩
  | mirroredInt p opTy lhs rhs =>
    obtain ⟨v, w, rfl, hv, hw⟩ := mapM_two hvalues
    refine ⟨[w, v], by simp [operands, hv, hw], rfl, ?_, rfl⟩
    simp [Machine.perform, actsOnWorld, shape, mapOperands, hM.icmp_swapped]
  | mirroredFloat p opTy lhs rhs =>
    obtain ⟨v, w, rfl, hv, hw⟩ := mapM_two hvalues
    refine ⟨[w, v], by simp [operands, hv, hw], rfl, ?_, rfl⟩
    simp [Machine.perform, actsOnWorld, shape, mapOperands, hM.fcmp_swapped]
  | decided | joined | narrowed => cases hplain

/-- A changed branch leads to the same block. -/
theorem Lawful.target?_change (hM : M.Lawful) {k k' : InstKind}
    (hchange : InstKind.Change comes k k')
    (h : M.target? args env k = some b) : M.target? args env k' = some b := by
  cases hchange with
  | same => exact h
  | decided c t e =>
    rw [hM.target?_literal] at h
    exact h
  | joined cond t =>
    obtain ⟨v, -, hb⟩ := Option.map_eq_some_iff.mp h
    rw [ite_self] at hb
    rw [← hb]
    rfl
  | mirroredInt | mirroredFloat | narrowed => cases h

variable (h : f.Peephole g)

include h

theorem Enters.change {prev : Option BlockId} {env env' : InstId → Option V} {insts : List InstId}
    (hf : f.WellFormed) (hprev : ∀ p, prev = some p → b ∈ f.successors p)
    (he : M.Enters f args prev env b insts env') : M.Enters g args prev env b insts env' := by
  obtain ⟨block, hblock, rfl⟩ := Option.map_eq_some_iff.mp he.block
  refine ⟨by rw [h.blocks]; exact he.block, ?_, ?_⟩
  · intro i hi incoming hk
    obtain ⟨old, hold, hchange⟩ := h.kind?_back hf.toPlaced ⟨block, hblock, hi⟩ hk
    obtain ⟨incoming', rfl⟩ := hchange.to_phi
    obtain ⟨keep, hkeep, heq⟩ := hchange.of_phi
    cases heq
    obtain ⟨v, hv, henv⟩ := he.phis i hi incoming' hold
    refine ⟨v, ?_, henv⟩
    cases prev with
    | none =>
      rw [M.phiValue?_start] at hv
      cases hv
    | some p => rw [phiValue?_filter (hkeep p (hprev p rfl)), hv]
  · intro i hi
    refine he.others i fun hmem hphi => hi hmem ?_
    obtain ⟨incoming, hk⟩ := hphi
    obtain ⟨k', hk', hchange⟩ := h.kind? ⟨block, hblock, hmem⟩ hk
    obtain ⟨keep, -, rfl⟩ := hchange.of_phi
    exact ⟨_, hk'⟩

/-- Every step of a function is a step of the function changed in place. -/
theorem Step.change (hM : M.Lawful) (hf : f.WellFormed) {c d : Config V W} (hc : Inside f c)
    (hd : M.Step f args c d) : M.Step g args c d := by
  cases hd with
  | phi hrest hphi =>
    obtain ⟨incoming, hk⟩ := hphi
    obtain ⟨k', hk', hchange⟩ := h.kind? (hc.standsIn hrest) hk
    obtain ⟨keep, -, rfl⟩ := hchange.of_phi
    exact .phi hrest ⟨_, hk'⟩
  | @plain i rest inst values v w hrest hinst hplain hvalues hperform =>
    obtain ⟨k, hk, hchange⟩ := h.change (hc.standsIn hrest) hinst
    obtain ⟨values', hvalues', hplain', hperform', hevents⟩ :=
      hM.perform_change hchange hplain hvalues i c.world
    rw [← hevents]
    exact .plain hrest hk hplain' hvalues' (hperform'.trans hperform)
  | jump hrest hk htarget henters =>
    obtain ⟨k', hk', hchange⟩ := h.kind? (hc.standsIn hrest) hk
    refine .jump hrest hk' (hM.target?_change hchange htarget) (henters.change h hf ?_)
    rintro p hp
    cases hp
    exact hc.mem_successors hf hrest hk htarget

variable {c : Config V W}

theorem Returns.change (hc : Inside f c) {v : Option V} (hv : M.Returns f args c v) :
    M.Returns g args c v := by
  have hkeep : ∀ {i rest r}, c.rest = i :: rest → f.kind? i = some (.ret r) → g.kind? i = some (.ret r) := by
    intro i rest r hrest hk
    obtain ⟨k', hk', hchange⟩ := h.kind? (hc.standsIn hrest) hk
    cases hchange
    exact hk'
  cases hv with
  | void hrest hk => exact .void hrest (hkeep hrest hk)
  | value hrest hk hv => exact .value hrest (hkeep hrest hk) hv

/-- Executions of a function are executions of the function changed in place. -/
theorem carries_change (hM : M.Lawful) {P : Function → Config V W → Prop}
    (hP : ∀ c, f.WellFormed → Inside f c → P f c → P g c) : M.Carries args P f g := by
  intro world c v trace hf hs hc
  have hs' : M.Starts g args world c := by
    obtain ⟨henters⟩ := hs
    exact .intro (henters.change h hf (by simp))
  refine ⟨h.wellFormed hf, c, hs', ?_⟩
  refine hc.simulate (R := fun c c' => Inside f c ∧ c' = c) ?_ ?_ ⟨hs.inside, rfl⟩
  · rintro c d _ hPc ⟨hin, rfl⟩ hd
    exact Or.inr ⟨d, hP _ hf hin hPc, hd.change h hM hf hin, hin.step hf hd, rfl⟩
  · rintro c _ v hPc ⟨hin, rfl⟩ hv
    exact ⟨hP _ hf hin hPc, hv.change h hin, rfl⟩

/-- The promises about the values of a function hold for the function changed in place. -/
theorem resultsWithin_change {b : Bounds} (hf : f.WellFormed) (hc : Inside f c)
    (hP : ResultsWithin M f id b args c) : ResultsWithin M g id b args c := by
  intro i rest inst' values v w j hrest hinst' hbinary hvalues hperform hj
  obtain ⟨inst, hinst, -⟩ := hf.placed (hc.standsIn hrest)
  obtain ⟨k, hk, hchange⟩ := h.change (hc.standsIn hrest) hinst
  rw [hinst'] at hk
  cases hk
  obtain rfl := hchange.isBinary hbinary
  exact hP i rest inst values v w j hrest hinst hbinary hvalues hperform hj

theorem comparesWithin_change {b : Bounds} (hf : f.WellFormed) (hc : Inside f c)
    (hP : ComparesWithin M f id b args c) : ComparesWithin M g id b args c := by
  intro i rest k hrest hk hcompare op hop
  obtain ⟨old, hold, hchange⟩ := h.kind?_back hf.toPlaced (hc.standsIn hrest) hk
  rw [hchange.isCompare] at hcompare
  exact hP i rest old hrest hold hcompare op (hchange.operands hop)

end Machine

/-! ## 4. Passes -/

namespace Function

theorem peephole_modifyInst (f : Function) (i : InstId) (change : InstKind → InstKind)
    (hchange : ∀ inst, f.inst? i = some inst → ∀ comes, InstKind.Change comes inst.kind (change inst.kind)) :
    f.Peephole (f.modifyInst i fun inst => { inst with kind := change inst.kind }) := by
  refine ⟨rfl, ?_⟩
  intro u b inst _ hinst
  have hmodified : (f.modifyInst i fun inst => { inst with kind := change inst.kind }).inst? u =
      some (if i = u then { inst with kind := change inst.kind } else inst) := by
    rw [inst?_modifyInst, hinst]
    rfl
  rw [hmodified]
  by_cases hui : i = u
  · subst hui
    exact ⟨change inst.kind, by rw [if_pos rfl], hchange inst hinst _⟩
  · exact ⟨inst.kind, by rw [if_neg hui], .same _⟩

theorem peephole_literalRight (f : Function) (i : InstId) :
    f.Peephole (f.modifyInst i fun inst => { inst with kind := inst.kind.literalRight }) := by
  refine f.peephole_modifyInst i literalRight fun inst _ comes => ?_
  cases inst.kind with
  | icmp p ty lhs rhs =>
    unfold literalRight
    dsimp only
    split_ifs
    · exact .mirroredInt p ty lhs rhs
    · exact .same _
  | fcmp p ty lhs rhs =>
    unfold literalRight
    dsimp only
    split_ifs
    · exact .mirroredFloat p ty lhs rhs
    · exact .same _
  | _ => exact .same _

variable {b : BlockId} {f : Function}

theorem change_of_onlyTarget? {comes : BlockId → Prop} {k : InstKind} (h : onlyTarget? k = some b) :
    InstKind.Change comes k (.br b) := by
  unfold onlyTarget? at h
  split at h
  · cases h
    exact .decided _ _ _
  · split_ifs at h with heq
    cases h
    subst heq
    exact .joined _ _
  · cases h

/-- A branch that can lead to one block only. -/
theorem peephole_foldBranch (f : Function) (b : BlockId) : f.Peephole (f.foldBranch b).1 := by
  have hrefl : f.Peephole f := ⟨rfl, fun _ hinst => ⟨_, hinst, .same _⟩⟩
  unfold foldBranch
  split
  · exact hrefl
  · rename_i t _
    split
    · rename_i target htarget
      refine f.peephole_modifyInst t (fun _ => .br target) fun inst hinst comes => change_of_onlyTarget? ?_
      rw [kind?_eq hinst] at htarget
      exact htarget
    · exact hrefl

theorem inst?_dropStaleIncoming (hf : f.Placed) {u : InstId} {inst : Inst}
    (hu : f.StandsIn u b) (hinst : f.inst? u = some inst) : f.dropStaleIncoming.inst? u =
      some { inst with kind := inst.kind.filterIncoming fun p => (f.predecessors[b]?.getD []).contains p } := by
  obtain ⟨inst', hinst', hblock, -⟩ := hf.placed hu
  rw [hinst] at hinst'
  cases hinst'
  rw [inst?] at hinst
  rw [inst?, dropStaleIncoming, List.getElem?_mapIdx, hinst]
  simp [mem_layout.mpr ⟨b, hu⟩, hblock]

/-- Phis without the values of blocks that do not lead to them. -/
theorem peephole_dropStaleIncoming (hf : f.Placed) : f.Peephole f.dropStaleIncoming := by
  refine ⟨rfl, ?_⟩
  intro u b inst hu hinst
  refine ⟨_, inst?_dropStaleIncoming hf hu hinst, ?_⟩
  obtain ⟨block, hb, -⟩ := hu
  cases hk : inst.kind with
  | phi incoming =>
    refine .narrowed incoming (fun p => (f.predecessors[b]?.getD []).contains p) fun p hp => ?_
    rw [List.contains_iff_mem, mem_predecessors]
    exact ⟨lt_of_mem_successors hp, (List.getElem?_eq_some_iff.mp hb).1, hp⟩
  | _ => exact .same _

end Function

namespace Machine

variable {V W : Type} {M : Machine V W} {args : List V} {id : FuncId} {b : Bounds}

/-- Folding branches, block by block, leaves the executions as they are. -/
theorem carries_foldBranches (hM : M.Lawful) (bs : List BlockId) :
    ∀ f : Function, M.Carries args (fun f => ResultsWithin M f id b args) f (Function.foldBranches bs f).1 := by
  induction bs with
  | nil => exact fun f => .refl _ f
  | cons a rest ih =>
    intro f
    have h := f.peephole_foldBranch a
    exact (carries_change h hM fun _ hf hin => resultsWithin_change h hf hin).trans (ih (f.foldBranch a).1)

theorem carries_dropStaleIncoming (hM : M.Lawful) (f : Function) :
    M.Carries args (fun f => ResultsWithin M f id b args) f f.dropStaleIncoming := by
  intro world c v trace hf hs hc
  have h := Function.peephole_dropStaleIncoming hf.toPlaced
  exact carries_change h hM (P := fun f => ResultsWithin M f id b args)
    (fun _ hf hin => resultsWithin_change h hf hin) world c v trace hf hs hc

end Machine

end RangedIR
