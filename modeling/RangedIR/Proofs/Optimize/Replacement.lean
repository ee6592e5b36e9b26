/-
RangedIR.Proofs.Optimize.Replacement — instructions that are replaced by operands.

Comparisons that intervals decide and arithmetic with one possible result are replaced by
literals; what the table promises makes the two equal whenever the instruction is
executed. A phi with one value is replaced by that value: the two are equal from the
entry of its block on, in all the blocks that its block dominates.
-/
import RangedIR.Proofs.Optimize.Peephole

namespace RangedIR

open Number RangedIR.Function

namespace Machine

variable {V W : Type} {M : Machine V W} {args : List V} {f : Function} {i : InstId} {b₀ : BlockId}

/-! ## 1. Literals -/

/-- An instruction that only computes, and yields a literal whenever it is executed, can be
replaced by the literal. -/
theorem carries_literal {P : Function → Config V W → Prop} {inst : Inst} {k : Constant} (hi : f.StandsIn i b₀)
    (hinst : f.inst? i = some inst) (hplain : inst.kind.isPlain = true) (hacts : inst.kind.actsOnWorld = false)
    (hresult : ∀ c rest values v w, P f c → c.rest = i :: rest →
      inst.kind.operands.mapM (M.eval args c.env) = some values →
      M.perform i inst values c.world = some (v, w) → v = M.literal k)
    (hP : f.WellFormed → ∀ c c' d u rest, P f c → Replaced M f args i (.const k) (fun _ => True) c c' →
      c.rest = u :: rest → u ≠ i → (M.Step f args c d ∨ ∃ v, M.Returns f args c v) →
      P (f.replaceBy i (.const k)) c') :
    M.Carries args P f (f.replaceBy i (.const k)) := by
  intro world c v trace hf hs hc
  obtain ⟨hterm, hphi⟩ := InstKind.isPlain_iff.mp hplain
  have hkind : f.kind? i = some inst.kind := kind?_eq hinst
  have hquiet : ∀ k, f.kind? i = some k → k.isTerminator = false ∧ k.actsOnWorld = false := by
    intro k hk
    rw [hkind] at hk
    cases hk
    exact ⟨hterm, hacts⟩
  have hop : Operand.const k ≠ .inst i := by simp
  refine ⟨f.wellFormed_replaceBy hf (fun k hk => (hquiet k hk).1) hop (by simp), ?_⟩
  refine hc.replaceBy hop (D := fun _ => True) (fun _ _ => trivial) hf hquiet ?_ (hP hf) hs
  intro c d hPc _ hequal hd _ v hv
  cases hd with
  | phi => exact hequal trivial v hv
  | @plain u rest inst₂ values v₂ w hrest hinst₂ _ hvalues hperform =>
    dsimp only at hv ⊢
    by_cases hui : u = i
    · subst hui
      rw [hinst] at hinst₂
      cases hinst₂
      rw [Function.update_self] at hv
      cases hv
      rw [hresult c rest values v w hPc hrest hvalues hperform]
      rfl
    · rw [Function.update_of_ne (Ne.symm hui)] at hv
      exact hequal trivial v hv
  | jump _ _ _ henters =>
    dsimp only at hv
    rw [henters.others i (fun _ ⟨incoming, hk⟩ => hphi incoming (by rw [hkind] at hk; exact Option.some.inj hk))] at hv
    exact hequal trivial v hv

end Machine

/-! ## 2. Comparisons -/

/-- Every literal that is compared is the number that is computed with. -/
def Function.ComparesExact (f : Function) : Prop :=
  ∀ u b k, f.StandsIn u b → f.kind? u = some k → k.isCompare = true →
    ∀ c, .const c ∈ k.operands → c.IsExact

namespace Function

variable {f g : Function} {i : InstId} {b₀ : BlockId}

theorem ComparesExact.change (h : f.Peephole g) (hf : f.WellFormed) (hexact : f.ComparesExact) : g.ComparesExact := by
  intro u b k hu hk hcompare c hc
  rw [h.standsIn] at hu
  obtain ⟨old, hold, hchange⟩ := h.kind?_back hf.toPlaced hu hk
  rw [hchange.isCompare] at hcompare
  exact hexact u b old hu hold hcompare c (hchange.operands hc)

/-- A truth value in the place of an instruction is exact. -/
theorem ComparesExact.replaceBy (hf : f.WellFormed) (hexact : f.ComparesExact) (t : Bool) :
    (f.replaceBy i (.const (.bool t))).ComparesExact := by
  intro u b k hu hk hcompare c hc
  obtain ⟨hne, hu⟩ := (standsIn_replaceBy hf.toPlaced).mp hu
  rw [kind?_replaceBy _ (mem_layout.mpr ⟨b, hu⟩) hne] at hk
  obtain ⟨old, hold, rfl⟩ := Option.map_eq_some_iff.mp hk
  rw [InstKind.operands_mapOperands] at hc
  obtain ⟨x, hx, hxc⟩ := List.mem_map.mp hc
  unfold substitute at hxc
  split_ifs at hxc
  · cases hxc
    trivial
  · subst hxc
    exact hexact u b old hu hold (by simpa using hcompare) c hx

end Function

theorem InstKind.of_outcome? {k : InstKind} {lookup : Operand → Option Bound} {t : Bool}
    (h : k.outcome? lookup = some t) : k.isCompare = true ∧ k.isPlain = true ∧ k.actsOnWorld = false := by
  cases k with
  | icmp | fcmp => exact ⟨rfl, rfl, rfl⟩
  | _ => cases h

namespace Machine

variable {V W : Type} {M : Machine V W} {args : List V} {f : Function} {i : InstId} {b₀ : BlockId} {id : FuncId}
  {b : Bounds}

/-- What the table promises about a point of an execution. -/
def Within (M : Machine V W) (id : FuncId) (b : Bounds) (args : List V) (f : Function) (c : Config V W) : Prop :=
  ComparesWithin M f id b args c ∧ ResultsWithin M f id b args c

/-- A comparison that the table decides can be replaced by its outcome. -/
theorem carries_outcome (hM : M.Lawful) {k : InstKind} {t : Bool} (hi : f.StandsIn i b₀) (hexact : f.ComparesExact)
    (hk : f.kind? i = some k) (ht : k.outcome? (b.operand? id) = some t) :
    M.Carries args (M.Within id b args) f (f.replaceBy i (.const (.bool t))) := by
  obtain ⟨inst, hinst, rfl⟩ := Option.map_eq_some_iff.mp hk
  obtain ⟨hcompare, hplain, hacts⟩ := InstKind.of_outcome? ht
  refine carries_literal hi hinst hplain hacts ?_ ?_
  · intro c rest values v w hP hrest hvalues hperform
    rw [Machine.perform, hacts, if_neg Bool.false_ne_true] at hperform
    obtain ⟨r, hr, heq⟩ := Option.map_eq_some_iff.mp hperform
    cases heq
    exact hM.outcome ht (hP.1 i rest inst.kind hrest hk hcompare) (hexact i b₀ inst.kind hi hk hcompare) hvalues hr
  · intro hf c c' d u rest hP h hrest hui hgo
    exact ⟨h.comparesWithin hP.1 hrest hui,
      h.resultsWithin (by simp) (fun _ _ => trivial) hP.2 hrest hui hgo⟩

/-- Folding comparisons leaves the executions as they are that keep to the table. -/
theorem carries_foldCompares (hM : M.Lawful) (ids : List InstId) :
    ∀ f : Function, ids.Nodup → (∀ i ∈ ids, ∃ b, f.StandsIn i b) → f.ComparesExact →
      M.Carries args (M.Within id b args) f (foldCompares id b ids f).1 := by
  induction ids with
  | nil => exact fun f _ _ _ => .refl _ f
  | cons i rest ih =>
    intro f hnodup hids hexact world c v trace hf hs hc
    obtain ⟨hnot, hnodup⟩ := List.nodup_cons.mp hnodup
    obtain ⟨b₀, hi⟩ := hids i List.mem_cons_self
    -- The comparison with its literal on the right.
    have hpeep := f.peephole_literalRight i
    obtain ⟨hf', c', hs', hc'⟩ := carries_change hpeep hM (P := M.Within id b args)
      (fun _ hf hin hP => ⟨comparesWithin_change hpeep hf hin hP.1, resultsWithin_change hpeep hf hin hP.2⟩)
      world c v trace hf hs hc
    have hexact' := hexact.change hpeep hf
    have hi' := hpeep.standsIn.mpr hi
    have hids' : ∀ j ∈ rest, ∃ b, (f.modifyInst i fun inst => { inst with kind := inst.kind.literalRight }).StandsIn j b := by
      intro j hj
      obtain ⟨b, hb⟩ := hids j (List.mem_cons_of_mem _ hj)
      exact ⟨b, hpeep.standsIn.mpr hb⟩
    unfold foldCompares
    dsimp only
    split
    · rename_i t ht
      obtain ⟨k, hk, ht⟩ := Option.bind_eq_some_iff.mp ht
      obtain ⟨hf₂, c₂, hs₂, hc₂⟩ := carries_outcome hM hi' hexact' hk ht world c' v trace hf' hs' hc'
      exact ih _ hnodup (standsIn_rest hf'.toPlaced hnot hids' _) (hexact'.replaceBy hf' t) world c₂ v trace hf₂
        hs₂ hc₂
    · exact ih _ hnodup hids' hexact' world c' v trace hf' hs' hc'

/-! ## 3. Arithmetic -/

/-- Arithmetic with one possible result can be replaced by its literal. -/
theorem carries_literalResult (hM : M.Lawful) {k : Constant} (hi : f.StandsIn i b₀)
    (hk : f.literalResult? id b i = some k) :
    M.Carries args (fun f => ResultsWithin M f id b args) f (f.replaceBy i (.const k)) := by
  obtain ⟨inst, op, lhs, rhs, r, hinst, hkind, hr, -, hone, hk⟩ := literalResult?_eq_some.mp hk
  have hbinary : inst.kind.isBinary = true := by rw [hkind]; rfl
  have hacts : inst.kind.actsOnWorld = false := by rw [hkind]; rfl
  refine carries_literal hi hinst (InstKind.isPlain_of_isBinary hbinary) hacts ?_ ?_
  · intro c rest values v w hP hrest hvalues hperform
    exact hM.eq_literal (hP i rest inst values v w r hrest hinst hbinary hvalues hperform hr) hone hk
  · intro hf c c' d u rest hP h hrest hui hgo
    exact h.resultsWithin (by simp) (fun _ _ => trivial) hP hrest hui hgo

/-- A pass over all live instructions, each of which it may replace. -/
theorem carries_replaceEach {P : Function → Config V W → Prop} {choose : Function → InstId → Option Operand}
    (h : ∀ g i b op, g.StandsIn i b → choose g i = some op → M.Carries args P g (g.replaceBy i op)) (f : Function) :
    M.Carries args P f (replaceEach choose f.layout f) := by
  intro world c v trace hf hs hc
  refine replaceEach_standing (P := fun g => g.WellFormed ∧ ∃ c, M.Starts g args world c ∧
    M.Finishes g args (P g) c v trace) (fun g hg => hg.1.toPlaced) ?_ f.layout f hf.nodup
    (fun _ hi => mem_layout.mp hi) ⟨hf, c, hs, hc⟩
  rintro g i b op ⟨hg, c, hs, hc⟩ hi hop
  exact h g i b op hi hop world c v trace hg hs hc

/-- Replacing arithmetic by literals leaves the executions as they are that keep to the
table. -/
theorem carries_substituteConstants (hM : M.Lawful) (f : Function) :
    M.Carries args (fun f => ResultsWithin M f id b args) f (f.substituteConstants id b).1 := by
  rw [substituteConstants, substituteIn_fst]
  refine carries_replaceEach (fun g i b₀ op hi hop => ?_) f
  obtain ⟨k, hk, rfl⟩ := Option.map_eq_some_iff.mp hop
  exact carries_literalResult hM hi hk

end Machine

/-! ## 4. Phis -/

namespace Function

variable {f : Function} {i : InstId} {op : Operand} {b₀ p₀ : BlockId}

variable (hf : f.WellFormed) (hi : f.StandsIn i b₀) (hk : f.kind? i = some (.phi [(op, p₀)])) (hb₀ : b₀ ≠ 0)

include hf hi hk

/-- The block of a phi with one value has one predecessor. -/
theorem eq_of_mem_successors {q : BlockId} (hq : b₀ ∈ f.successors q) : q = p₀ := by
  obtain ⟨x, hx⟩ := hf.covered hi hk q hq
  simp only [List.mem_singleton, Prod.mk.injEq] at hx
  exact hx.2

omit hf in
theorem usedIn_source {j : InstId} (hop : op = .inst j) : f.UsedIn j p₀ := by
  subst hop
  exact .phi (mem_layout.mpr ⟨b₀, hi⟩) hk (List.mem_singleton_self _)

include hb₀

/-- What a phi with one value stands for is defined outside the blocks that the block of
the phi dominates. -/
theorem reached_source (hreach : f.Reached none b₀) {j : InstId} {d : BlockId} (hop : op = .inst j)
    (hj : f.StandsIn j d) : f.Reached (some b₀) d := by
  obtain ⟨a, ha, hsucc⟩ := hreach.arrival (fun h => h.ne rfl) hb₀
  obtain rfl := eq_of_mem_successors hf hi hk hsucc
  obtain ⟨d', hd', hdom⟩ := hf.dominated (usedIn_source hi hk hop)
  rw [hf.toPlaced.standsIn_unique hj hd']
  exact ha.through hdom

/-- What a phi with one value stands for is defined on every way to a use of the phi. -/
theorem dominated_source {j : InstId} {b : BlockId} (hop : op = .inst j) (hused : f.UsedIn i b) :
    ∃ d, f.StandsIn j d ∧ ¬ f.Reached (some d) b := by
  obtain ⟨d, hd, hdom⟩ := hf.dominated (usedIn_source hi hk hop)
  obtain ⟨b₁, hb₁, hdom₁⟩ := hf.dominated hused
  obtain rfl := hf.toPlaced.standsIn_unique hi hb₁
  refine ⟨d, hd, fun h => ?_⟩
  -- A way around the definition leads into the block of the phi, from its predecessor.
  have hway := h.through hdom₁
  cases hway with
  | entry => exact hb₀ rfl
  | step ha hsucc _ _ =>
    rw [eq_of_mem_successors hf hi hk hsucc] at ha
    exact hdom ha

end Function

namespace Machine

variable {V W : Type} {M : Machine V W} {args : List V} {f : Function} {i : InstId} {op : Operand} {b₀ p₀ : BlockId}
  {id : FuncId} {b : Bounds}

theorem eval_eq {env env' : InstId → Option V} (h : ∀ j, op = .inst j → env' j = env j) :
    M.eval args env' op = M.eval args env op := by
  cases op with
  | inst j => exact h j rfl
  | _ => rfl

/-- In the blocks that the block of a phi with one value dominates, the phi stays equal to
that value. -/
theorem Step.phi_equal (hf : f.WellFormed) (hi : f.StandsIn i b₀) (hk : f.kind? i = some (.phi [(op, p₀)]))
    (hb₀ : b₀ ≠ 0) {c d : Config V W} (hin : Inside f c)
    (hequal : ¬ f.Reached (some b₀) c.block → ∀ v, c.env i = some v → M.eval args c.env op = some v)
    (hd : M.Step f args c d) (hD : ¬ f.Reached (some b₀) d.block) (v : V) (hv : d.env i = some v) :
    M.eval args d.env op = some v := by
  have hreach : f.Reached none b₀ := (hin.step hf hd).reached.through hD
  have hsource : ∀ j b, op = .inst j → f.StandsIn j b → f.Reached (some b₀) b := fun j b =>
    reached_source hf hi hk hb₀ hreach
  cases hd with
  | phi => exact hequal hD v hv
  | @plain u rest inst values v₂ w hrest hinst hplain _ _ =>
    have hu := hin.standsIn hrest
    have hui : i ≠ u := by
      rintro rfl
      rw [kind?_eq hinst, Option.some.injEq] at hk
      exact (InstKind.isPlain_iff.mp hplain).2 _ hk
    dsimp only at hv ⊢
    rw [Function.update_of_ne hui] at hv
    rw [@eval_eq _ _ _ _ _ c.env, hequal hD v hv]
    intro j hj
    refine Function.update_of_ne ?_ _ _
    rintro rfl
    exact hD (hsource j _ hj hu)
  | @jump u rest insts k b env hrest hku htarget henters =>
    dsimp only at hv hD ⊢
    have hmem : ∀ j, j ∈ insts ↔ f.StandsIn j b := by
      intro j
      obtain ⟨block, hblock, rfl⟩ := Option.map_eq_some_iff.mp henters.block
      exact ⟨fun h => ⟨block, hblock, h⟩, fun ⟨block', h, hj⟩ => by rw [hblock] at h; cases h; exact hj⟩
    have hkept : M.eval args env op = M.eval args c.env op := by
      refine eval_eq fun j hj => henters.others j fun hjb => ?_
      intro _
      have hjr := hsource j b hj ((hmem j).mp hjb)
      exact hD hjr
    rw [hkept]
    by_cases hbb : b = b₀
    · subst hbb
      obtain ⟨v', hphi, henv⟩ := henters.phis i ((hmem i).mpr hi) _ hk
      rw [hv] at henv
      cases henv
      unfold phiValue? at hphi
      obtain ⟨e, he, heval⟩ := Option.bind_eq_some_iff.mp hphi
      rw [List.mem_singleton.mp (List.mem_of_find?_eq_some he)] at heval
      exact heval
    · have hnot : i ∉ insts := fun h => hbb (hf.toPlaced.standsIn_unique ((hmem i).mp h) hi)
      rw [henters.others i fun h => absurd h hnot] at hv
      refine hequal (fun hr => hD ?_) v hv
      exact hr.step (hin.mem_successors hf hrest hku htarget) henters.lt (by simpa using hbb)

/-- A phi with one value can be replaced by that value. -/
theorem carries_onlyIncoming (hi : f.StandsIn i b₀) (hk : f.kind? i = some (.phi [(op, p₀)])) (hop : op ≠ .inst i) :
    M.Carries args (fun f => ResultsWithin M f id b args) f (f.replaceBy i op) := by
  intro world c v trace hf hs hc
  -- The first block has no phis.
  have hb₀ : b₀ ≠ 0 := by
    rintro rfl
    obtain ⟨henters⟩ := hs
    obtain ⟨block, hblock, hmem⟩ := hi
    obtain ⟨block', hblock', rfl⟩ := Option.map_eq_some_iff.mp henters.block
    rw [hblock] at hblock'
    cases hblock'
    exact henters.start.1 i hmem ⟨_, hk⟩
  have hquiet : ∀ k, f.kind? i = some k → k.isTerminator = false ∧ k.actsOnWorld = false := by
    intro k hk'
    rw [hk] at hk'
    cases hk'
    exact ⟨rfl, rfl⟩
  have hD : ∀ b, f.UsedIn i b → ¬ f.Reached (some b₀) b := by
    intro b hused
    obtain ⟨d, hd, hdom⟩ := hf.dominated hused
    rwa [hf.toPlaced.standsIn_unique hi hd]
  refine ⟨f.wellFormed_replaceBy hf (fun k hk => (hquiet k hk).1) hop
    (fun j b => dominated_source hf hi hk hb₀), ?_⟩
  refine hc.replaceBy hop hD hf hquiet ?_ ?_ hs
  · intro c d _ hin hequal hd hDd v hv
    exact hd.phi_equal hf hi hk hb₀ hin hequal hDd v hv
  · intro c c' d u rest hP h hrest hui hgo
    exact h.resultsWithin hop hD hP hrest hui hgo

/-- Replacing phis of one value leaves the executions as they are. -/
theorem carries_collapsePhis (f : Function) :
    M.Carries args (fun f => ResultsWithin M f id b args) f (collapsePhis f.layout f).1 := by
  rw [collapsePhis_fst]
  refine carries_replaceEach (fun g i b₀ op hi hop => ?_) f
  obtain ⟨p, hk, hne⟩ := phi_of_onlyValue? hop
  exact carries_onlyIncoming hi hk hne

end Machine

end RangedIR
