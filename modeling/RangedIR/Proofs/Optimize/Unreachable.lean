/-
RangedIR.Proofs.Optimize.Unreachable — the removal of blocks that are not reached.

The blocks that remain are numbered anew. An execution stays in blocks that are reached,
so it goes through the remaining blocks under their new numbers.
-/
import RangedIR.Proofs.Code.Retained
import RangedIR.Proofs.Semantics.Simulation

namespace RangedIR

/-! ## 1. Blocks under new numbers -/

namespace Function

/-- A function of which the blocks that are reached remain, under new numbers. -/
structure Renumbered (f g : Function) (number : BlockId → Option BlockId) : Prop where
  isSome_iff : ∀ {b : BlockId}, (number b).isSome = true ↔ f.Reached none b
  unique : ∀ {a b n : BlockId}, number a = some n → number b = some n → a = b
  first : 0 < f.blocks.length → number 0 = some 0
  sublist : g.blocks.Sublist f.blocks
  blocks : ∀ {b n : BlockId}, number b = some n → g.blocks[n]? = f.blocks[b]?
  blocks_back : ∀ {n : BlockId} {block : Block}, g.blocks[n]? = some block →
    ∃ b, number b = some n ∧ f.blocks[b]? = some block
  inst : ∀ {u : InstId} {b n : BlockId} {inst : Inst}, f.StandsIn u b → number b = some n →
    f.inst? u = some inst → g.inst? u = some { inst with block := n, kind := inst.kind.moved number }

namespace Renumbered

variable {f g : Function} {number : BlockId → Option BlockId} (h : f.Renumbered g number)
variable {b n : BlockId} {u : InstId}

include h

theorem exists_number (hb : f.Reached none b) : ∃ n, number b = some n :=
  Option.isSome_iff_exists.mp (h.isSome_iff.mpr hb)

theorem reached (hb : number b = some n) : f.Reached none b :=
  h.isSome_iff.mp (by rw [hb]; rfl)

theorem standsIn (hb : number b = some n) : g.StandsIn u n ↔ f.StandsIn u b := by
  unfold StandsIn
  rw [h.blocks hb]

theorem standsIn_back (hu : g.StandsIn u n) : ∃ b, number b = some n ∧ f.StandsIn u b := by
  obtain ⟨block, hblock, hmem⟩ := hu
  obtain ⟨b, hb, hold⟩ := h.blocks_back hblock
  exact ⟨b, hb, block, hold, hmem⟩

theorem kind? (hu : f.StandsIn u b) (hb : number b = some n) {k : InstKind}
    (hk : f.kind? u = some k) : g.kind? u = some (k.moved number) := by
  obtain ⟨inst, hinst, rfl⟩ := Option.map_eq_some_iff.mp hk
  exact kind?_eq (h.inst hu hb hinst)

theorem kind?_back (hf : f.Placed) (hu : f.StandsIn u b) (hb : number b = some n)
    {k' : InstKind} (hk' : g.kind? u = some k') : ∃ k, f.kind? u = some k ∧ k' = k.moved number := by
  obtain ⟨inst, hinst, -⟩ := hf.placed hu
  have hk := h.kind? hu hb (kind?_eq hinst)
  rw [hk'] at hk
  exact ⟨inst.kind, kind?_eq hinst, Option.some.inj hk⟩

variable (hf : f.Placed)

include hf

/-- A block that remains ends as it did. -/
theorem terminator?_eq (hb : number b = some n) : g.terminator? n = f.terminator? b := by
  have hlt := (h.reached hb).lt
  have hblock := List.getElem?_eq_getElem hlt
  have hblock' := (h.blocks hb).trans hblock
  cases hlast : f.blocks[b].insts.getLast? with
  | none => simp [terminator?, hblock, hblock', hlast]
  | some t =>
    have ht : f.StandsIn t b := ⟨_, hblock, List.mem_of_getLast? hlast⟩
    obtain ⟨inst, hinst, -⟩ := hf.placed ht
    have hk' := h.kind? ht hb (kind?_eq hinst)
    simp [terminator?, hblock, hblock', hlast, kind?_eq hinst, hk']

theorem successors_eq (hb : number b = some n) :
    g.successors n = (f.successors b).map fun b => (number b).getD b := by
  unfold successors
  rw [h.terminator?_eq hf hb]
  cases ht : f.terminator? b with
  | none => rfl
  | some t =>
    have hstands := standsIn_of_terminator? ht
    obtain ⟨inst, hinst, -⟩ := hf.placed hstands
    rw [Option.bind_some, Option.bind_some, kind?_eq hinst, h.kind? hstands hb (kind?_eq hinst)]
    exact InstKind.successors_moved

/-- Every block that remains is still reached. -/
theorem reached_new (hr : f.Reached none b) (hb : number b = some n) : g.Reached none n := by
  have hlt : ∀ {b n}, f.Reached none b → number b = some n → n < g.blocks.length := by
    intro b n hr hb
    have hblock := h.blocks hb
    have hold := List.getElem?_eq_getElem hr.lt
    exact (List.getElem?_eq_some_iff.mp (hblock.trans hold)).1
  induction hr generalizing n with
  | entry h0 hne =>
    have hzero := h.first h0
    rw [hb] at hzero
    cases hzero
    exact .entry (hlt (.entry h0 hne) hb) (by simp)
  | @step a b hr hsucc hlen hne ih =>
    obtain ⟨m, hm⟩ := h.exists_number hr
    refine (ih hm).step ?_ (hlt (hr.step hsucc hlen hne) hb) (by simp)
    rw [h.successors_eq hf hm]
    exact List.mem_map.mpr ⟨b, hsucc, by rw [hb, Option.getD_some]⟩

/-- An edge between blocks that remain was an edge under the old numbers. -/
theorem mem_successors_back {a m : BlockId} (ha : number a = some m) (hn : n ∈ g.successors m)
    (hlt : n < g.blocks.length) : ∃ b, number b = some n ∧ b ∈ f.successors a := by
  rw [h.successors_eq hf ha] at hn
  obtain ⟨b, hb, rfl⟩ := List.mem_map.mp hn
  cases hnum : number b with
  | some n => exact ⟨b, hnum, hb⟩
  | none =>
    -- A branch to a block that does not exist keeps its target, which is too large.
    rw [hnum, Option.getD_none] at hlt
    obtain ⟨n, hn⟩ := h.exists_number ((h.reached ha).step hb (hlt.trans_le h.sublist.length_le) (by simp))
    rw [hnum] at hn
    cases hn

theorem reached_back {d m : BlockId} (hd : number d = some m) (hr : g.Reached (some m) n) :
    ∃ b, number b = some n ∧ f.Reached (some d) b := by
  have hne : ∀ {b n}, number b = some n → some n ≠ some m → some b ≠ some d := by
    rintro b n hb hne heq
    cases heq
    rw [hd] at hb
    exact hne hb.symm
  induction hr with
  | entry h0 h0m =>
    have hlen := h0.trans_le h.sublist.length_le
    have hzero := h.first hlen
    exact ⟨0, hzero, .entry hlen (hne hzero h0m)⟩
  | @step a n _ hsucc hlt hnm ih =>
    obtain ⟨a', ha', hra⟩ := ih
    obtain ⟨b, hb, hsucc'⟩ := h.mem_successors_back hf ha' hsucc hlt
    exact ⟨b, hb, hra.step hsucc' (h.reached hb).lt (hne hb hnm)⟩

theorem usedIn_back {j : InstId} (hj : g.UsedIn j n) : ∃ b, number b = some n ∧ f.UsedIn j b := by
  cases hj with
  | @plain _ block u k hb hu hk hphi hmem =>
    obtain ⟨b, hnum, hold⟩ := h.blocks_back hb
    obtain ⟨old, hold', rfl⟩ := h.kind?_back hf ⟨block, hold, hu⟩ hnum hk
    refine ⟨b, hnum, .plain hold hu hold' ?_ (InstKind.operands_moved_subset hmem)⟩
    rintro incoming rfl
    exact hphi _ rfl
  | @phi u incoming _ hu hk hmem =>
    obtain ⟨m, hm⟩ := mem_layout.mp hu
    obtain ⟨b, hnum, hb⟩ := h.standsIn_back hm
    obtain ⟨old, hold, hmoved⟩ := h.kind?_back hf hb hnum hk
    obtain ⟨incoming', rfl, rfl⟩ := InstKind.moved_eq_phi hmoved.symm
    obtain ⟨⟨op, p⟩, he, heq⟩ := List.mem_map.mp hmem
    obtain ⟨he, hsome⟩ := List.mem_filter.mp he
    obtain ⟨q, hq⟩ := Option.isSome_iff_exists.mp hsome
    dsimp only at hq
    rw [hq] at heq
    cases heq
    exact ⟨p, hq, .phi (mem_layout.mpr ⟨b, hb⟩) hold he⟩

theorem placed : g.Placed where
  nodup := hf.nodup.sublist (h.sublist.flatMap _)
  placed {u n} hu := by
    obtain ⟨b, hb, hu⟩ := h.standsIn_back hu
    obtain ⟨inst, hinst, -, herased⟩ := hf.placed hu
    exact ⟨_, h.inst hu hb hinst, rfl, herased⟩

omit hf in
theorem ended (hf : f.Ended) : g.Ended := by
  intro block hblock t ht
  obtain ⟨n, hn⟩ := List.mem_iff_getElem?.mp hblock
  obtain ⟨b, hb, hold⟩ := h.blocks_back hn
  obtain ⟨k, hk, hterm⟩ := hf block (List.mem_of_getElem? hold) t ht
  exact ⟨_, h.kind? ⟨block, hold, List.mem_of_getLast? ht⟩ hb hk, by simpa using hterm⟩

omit hf in
theorem arranged (hf : f.Arranged) : g.Arranged where
  toPlaced := h.placed hf.toPlaced
  ends {n block} hn := by
    obtain ⟨b, hb, hblock⟩ := h.blocks_back hn
    obtain ⟨body, t, k, hinsts, hk, hterm, hbody⟩ := hf.ends hblock
    refine ⟨body, t, k.moved number, hinsts, h.kind? ⟨block, hblock, by simp [hinsts]⟩ hb hk, by simpa using hterm, ?_⟩
    intro i hi k' hk'
    obtain ⟨old, hold, rfl⟩ := h.kind?_back hf.toPlaced ⟨block, hblock, by simp [hinsts, hi]⟩ hb hk'
    simpa using hbody i hi old hold

omit hf in
/-- Removing the blocks that are not reached keeps definitions before uses. -/
theorem dominated (hf : f.Dominated) : g.Dominated where
  toArranged := h.arranged hf.toArranged
  dominated {j n} hj := by
    obtain ⟨b, hb, hused⟩ := h.usedIn_back hf.toPlaced hj
    obtain ⟨d, hd, hreach⟩ := hf.dominated hused
    obtain ⟨m, hm⟩ := h.exists_number ((h.reached hb).through hreach)
    refine ⟨m, (h.standsIn hm).mpr hd, fun hr => hreach ?_⟩
    obtain ⟨b', hb', hr'⟩ := h.reached_back hf.toPlaced hm hr
    rwa [h.unique hb hb']

omit hf in
theorem wellFormed (hf : f.WellFormed) : g.WellFormed where
  toDominated := h.dominated hf.toDominated
  covered {i n incoming} hi hk q hq := by
    obtain ⟨b, hb, hib⟩ := h.standsIn_back hi
    obtain ⟨old, hold, hmoved⟩ := h.kind?_back hf.toPlaced hib hb hk
    obtain ⟨incoming', rfl, rfl⟩ := InstKind.moved_eq_phi hmoved.symm
    obtain ⟨block, hblock, -⟩ := hi
    have hlt : n < g.blocks.length := (List.getElem?_eq_some_iff.mp hblock).1
    obtain ⟨p, hp, -⟩ := h.blocks_back (List.getElem?_eq_getElem (lt_of_mem_successors hq))
    obtain ⟨b', hb', hsucc⟩ := h.mem_successors_back hf.toPlaced hp hq hlt
    obtain rfl := h.unique hb hb'
    obtain ⟨op, hop⟩ := hf.covered hib hold p hsucc
    refine ⟨op, List.mem_map.mpr ⟨(op, p), List.mem_filter.mpr ⟨hop, ?_⟩, ?_⟩⟩
    · simp [hp]
    · simp [hp]

end Renumbered

end Function

/-! ## 2. Executions -/

namespace Machine

variable {V W : Type} {M : Machine V W} {args : List V} {f g : Function} {number : BlockId → Option BlockId}

theorem target?_moved {env : InstId → Option V} {k : InstKind} :
    M.target? args env (k.moved number) = (M.target? args env k).map fun b => (number b).getD b := by
  cases k with
  | condBr cond t e =>
    simp only [InstKind.moved, InstKind.filterIncoming, InstKind.mapBlocks, target?, Option.map_map]
    congr 1
    funext v
    simp only [Function.comp_apply]
    split_ifs <;> rfl
  | _ => rfl

/-- Points of a function and of the function with new numbers of blocks. -/
structure Moved (f : Function) (number : BlockId → Option BlockId) (c c' : Config V W) : Prop where
  block : number c.block = some c'.block
  rest : c'.rest = c.rest
  env : c'.env = c.env
  world : c'.world = c.world
  trace : c'.trace = c.trace
  inside : Inside f c

variable (h : f.Renumbered g number)

include h

theorem phiValue?_moved {env : InstId → Option V} {p q : BlockId} (hp : number p = some q)
    (incoming : List (Operand × BlockId)) :
    M.phiValue? args env (some q)
        ((incoming.filter fun e => (number e.2).isSome).map fun e => (e.1, (number e.2).getD e.2)) =
      M.phiValue? args env (some p) incoming := by
  unfold phiValue?
  rw [List.find?_map, List.find?_filter]
  have hsame : ∀ e : Operand × BlockId, decide ((number e.2).isSome = true ∧
      (some q == some ((number e.2).getD e.2)) = true) = (some p == some e.2) := by
    intro e
    by_cases he : e.2 = p
    · simp [he, hp]
    · cases hn : number e.2 with
      | none => simp [Ne.symm he]
      | some n =>
        have hne : q ≠ n := by
          rintro rfl
          exact he (h.unique hn hp)
        simp [hne, Ne.symm he]
  simp only [Function.comp_apply, hsame, Option.bind_map]

variable (hf : f.WellFormed)

include hf

theorem Enters.moved {prev prev' : Option BlockId} {env env' : InstId → Option V} {b n : BlockId}
    {insts : List InstId} (hprev : ∀ p, prev = some p → prev' = number p ∧ (number p).isSome) (hb : number b = some n)
    (he : M.Enters f args prev env b insts env') : M.Enters g args prev' env n insts env' := by
  obtain ⟨block, hblock, rfl⟩ := Option.map_eq_some_iff.mp he.block
  refine ⟨by rw [h.blocks hb]; exact he.block, ?_, ?_⟩
  · intro i hi incoming hk
    obtain ⟨old, hold, hmoved⟩ := h.kind?_back hf.toPlaced ⟨block, hblock, hi⟩ hb hk
    obtain ⟨incoming', rfl, rfl⟩ := InstKind.moved_eq_phi hmoved.symm
    obtain ⟨v, hv, henv⟩ := he.phis i hi incoming' hold
    refine ⟨v, ?_, henv⟩
    cases prev with
    | none =>
      rw [M.phiValue?_start] at hv
      cases hv
    | some p =>
      obtain ⟨rfl, hsome⟩ := hprev p rfl
      obtain ⟨q, hq⟩ := Option.isSome_iff_exists.mp hsome
      rw [hq, phiValue?_moved h hq, hv]
  · intro i hi
    refine he.others i fun hmem hphi => hi hmem ?_
    obtain ⟨incoming, hk⟩ := hphi
    exact ⟨_, h.kind? ⟨block, hblock, hmem⟩ hb hk⟩

/-- A step between blocks that are reached is a step under the new numbers. -/
theorem Moved.step {c c' d : Config V W} (hc : Moved f number c c') (hd : M.Step f args c d) :
    ∃ d', M.Step g args c' d' ∧ Moved f number d d' := by
  have hinside := hc.inside.step hf hd
  cases hd with
  | @phi i rest hrest hphi =>
    obtain ⟨incoming, hk⟩ := hphi
    have hk' := h.kind? (hc.inside.standsIn hrest) hc.block hk
    exact ⟨_, .phi (hc.rest.trans hrest) ⟨_, hk'⟩, hc.block, rfl, hc.env, hc.world, hc.trace, hinside⟩
  | @plain i rest inst values v w hrest hinst hplain hvalues hperform =>
    have hinst' := h.inst (hc.inside.standsIn hrest) hc.block hinst
    rw [InstKind.moved_of_isPlain hplain] at hinst'
    have hvalues' : inst.kind.operands.mapM (M.eval args c'.env) = some values := by rw [hc.env, hvalues]
    have hperform' : M.perform i { inst with block := c'.block } values c'.world = some (v, w) := by
      rw [hc.world, ← hperform]
      rfl
    refine ⟨_, .plain (hc.rest.trans hrest) hinst' hplain hvalues' hperform', hc.block, rfl, ?_, rfl, ?_, hinside⟩
    · rw [hc.env]
    · rw [hc.trace]
  | @jump i rest insts k b env hrest hk htarget henters =>
    have hk' := h.kind? (hc.inside.standsIn hrest) hc.block hk
    obtain ⟨n, hn⟩ := h.exists_number hinside.reached
    have htarget' : M.target? args c'.env (k.moved number) = some n := by
      dsimp only at hn
      rw [target?_moved, hc.env, htarget, Option.map_some, hn, Option.getD_some]
    have henters' : M.Enters g args (some c'.block) c'.env n insts env := by
      rw [hc.env]
      refine henters.moved h hf ?_ hn
      rintro p hp
      cases hp
      exact ⟨hc.block.symm, by rw [hc.block]; rfl⟩
    exact ⟨_, .jump (hc.rest.trans hrest) hk' htarget' henters', hn, rfl, rfl, hc.world, hc.trace, hinside⟩

omit hf in
theorem Moved.returns {c c' : Config V W} (hc : Moved f number c c') {v : Option V} (hv : M.Returns f args c v) :
    M.Returns g args c' v := by
  cases hv with
  | void hrest hk =>
    exact .void (hc.rest.trans hrest) (h.kind? (hc.inside.standsIn hrest) hc.block hk)
  | value hrest hk hv =>
    refine .value (hc.rest.trans hrest) (h.kind? (hc.inside.standsIn hrest) hc.block hk) ?_
    rw [hc.env, hv]

theorem Moved.resultsWithin {id : FuncId} {b : Bounds} {c c' : Config V W} (hc : Moved f number c c')
    (hP : ResultsWithin M f id b args c) : ResultsWithin M g id b args c' := by
  intro i rest inst' values v w j hrest hinst' hbinary hvalues hperform hj
  rw [hc.rest] at hrest
  obtain ⟨inst, hinst, -⟩ := hf.placed (hc.inside.standsIn hrest)
  have hmoved := h.inst (hc.inside.standsIn hrest) hc.block hinst
  rw [hinst'] at hmoved
  cases hmoved
  dsimp only at hbinary hvalues
  have hkind : inst.kind.moved number = inst.kind := by
    cases hk : inst.kind with
    | phi | br | condBr =>
      rw [hk] at hbinary
      cases hbinary
    | _ => rfl
  rw [hkind] at hbinary hvalues hperform
  rw [hc.env] at hvalues
  rw [hc.world] at hperform
  exact hP i rest inst values v w j hrest hinst hbinary hvalues hperform hj

omit hf in
/-- Executions of a function are executions of the function with fewer blocks. -/
theorem carries_moved {id : FuncId} {b : Bounds} :
    M.Carries args (fun f => ResultsWithin M f id b args) f g := by
  intro world c v trace hf hs hc
  have hin := hs.inside
  obtain ⟨henters⟩ := hs
  have hfirst := h.first henters.lt
  refine ⟨h.wellFormed hf, _, .intro (henters.moved h hf (by simp) hfirst), ?_⟩
  refine hc.simulate (R := Moved f number) ?_ ?_ ⟨hfirst, rfl, rfl, rfl, rfl, hin⟩
  · intro c d c' hP hr hd
    obtain ⟨d', hd', hr'⟩ := hr.step h hf hd
    exact Or.inr ⟨d', hr.resultsWithin h hf hP, hd', hr'⟩
  · intro c c' v hP hr hv
    exact ⟨hr.resultsWithin h hf hP, hr.returns h hv, hr.trace⟩

end Machine

/-! ## 3. The pass -/

namespace Function

/-- The new numbers of the blocks that are reached. -/
def newNumber (f : Function) : BlockId → Option BlockId := renumbering (f.reachable none) f.blocks.length

theorem isSome_newNumber {f : Function} {b : BlockId} : (f.newNumber b).isSome = true ↔ f.Reached none b := by
  rw [newNumber, isSome_renumbering, f.getElem?_reachable]
  exact and_iff_right_of_imp Reached.lt

/-- Removing blocks gives the remaining ones their new numbers. -/
theorem renumbered_retainBlocks {f : Function} (hf : f.Placed) :
    f.Renumbered (f.retainBlocks (f.reachable none)) f.newNumber where
  isSome_iff := isSome_newNumber
  unique := renumbering_unique
  first h0 := by
    obtain ⟨n, hn⟩ := Option.isSome_iff_exists.mp (isSome_newNumber.mpr (.entry h0 (by simp)))
    have := countP_renumbering hn
    rw [hn, ← this]
    rfl
  sublist := f.sublist_retainBlocks _
  blocks := blocks_retainBlocks
  blocks_back := blocks_retainBlocks_back
  inst hu hb hinst := hf.inst?_retainBlocks hu hb hinst

end Function

/-- Removing the blocks that are not reached leaves the executions as they are. -/
theorem Machine.carries_removeUnreachable {V W : Type} {M : Machine V W} {args : List V} {id : FuncId} {b : Bounds}
    (f : Function) : M.Carries args (fun f => ResultsWithin M f id b args) f f.removeUnreachable.1 := by
  unfold Function.removeUnreachable
  dsimp only
  split_ifs
  · exact .refl _ f
  · intro world c v trace hf hs hc
    exact carries_moved (Function.renumbered_retainBlocks hf.toPlaced) world c v trace hf hs hc

end RangedIR
