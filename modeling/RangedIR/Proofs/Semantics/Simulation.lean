/-
RangedIR.Proofs.Semantics.Simulation — executions of a function and of a rewritten one.

  §1 simulations: points of two executions that correspond step by step, some steps of
     the first to none of the second;
  §2 what an execution promises about a table of intervals;
  §3 the simulation of an instruction replaced by an operand.
-/
import RangedIR.Proofs.Code.WellFormed
import RangedIR.Proofs.Interval.Membership

namespace RangedIR.Machine

open Number

variable {V W : Type} {M : Machine V W} {f g : Function} {args : List V}

/-! ## 1. Simulations -/

/-- Where related points stay related, an execution of the first function to its end is
one of the second with the same result and the same events. -/
theorem Finishes.simulate {P P' : Config V W → Prop} {R : Config V W → Config V W → Prop}
    (hstep : ∀ c d c', P c → R c c' → M.Step f args c d → R d c' ∨ ∃ d', P' c' ∧ M.Step g args c' d' ∧ R d d')
    (hret : ∀ c c' v, P c → R c c' → M.Returns f args c v → P' c' ∧ M.Returns g args c' v ∧ c'.trace = c.trace)
    {c c' : Config V W} {v : Option V} {trace : List (Event V)} (hc : R c c')
    (h : M.Finishes f args P c v trace) : M.Finishes g args P' c' v trace := by
  induction h generalizing c' with
  | done hP hv =>
    obtain ⟨hP', hv', htrace⟩ := hret _ c' _ hP hc hv
    rw [← htrace]
    exact .done hP' hv'
  | next hP hd _ ih =>
    rcases hstep _ _ c' hP hc hd with hstutter | ⟨d', hP', hd', hR⟩
    · exact ih hstutter
    · exact .next hP' hd' (ih hR)

theorem Finishes.mono {P Q : Config V W → Prop} (hPQ : ∀ c, P c → Q c) {c : Config V W} {v : Option V}
    {trace : List (Event V)} (h : M.Finishes f args P c v trace) : M.Finishes f args Q c v trace := by
  induction h with
  | done hP hv => exact .done (hPQ _ hP) hv
  | next hP hd _ ih => exact .next (hPQ _ hP) hd ih

/-- A point inside a function: what remains is an end of a block that is reached. -/
structure Inside (f : Function) (c : Config V W) : Prop where
  place : ∃ block done, f.blocks[c.block]? = some block ∧ block.insts = done ++ c.rest
  reached : f.Reached none c.block

variable {b : BlockId} {insts : List InstId} {i : InstId} {rest : List InstId} {prev : Option BlockId}
variable {k : InstKind}

theorem Inside.standsIn {c : Config V W} (h : Inside f c)
    (hrest : c.rest = i :: rest) : f.StandsIn i c.block := by
  obtain ⟨block, done, hblock, hinsts⟩ := h.place
  exact ⟨block, hblock, by simp [hinsts, hrest]⟩

theorem Enters.lt {env env' : InstId → Option V}
    (h : M.Enters f args prev env b insts env') : b < f.blocks.length := by
  obtain ⟨block, hblock, -⟩ := Option.map_eq_some_iff.mp h.block
  exact (List.getElem?_eq_some_iff.mp hblock).1

theorem Enters.inside {env env' : InstId → Option V}
    (h : M.Enters f args prev env b insts env') (hb : f.Reached none b) (world : W) (trace : List (Event V)) :
    Inside f ⟨b, insts, env', world, trace⟩ := by
  obtain ⟨block, hblock, rfl⟩ := Option.map_eq_some_iff.mp h.block
  exact ⟨⟨block, [], hblock, rfl⟩, hb⟩

theorem Starts.inside {world : W} {c : Config V W} (h : M.Starts f args world c) : Inside f c := by
  obtain ⟨henters⟩ := h
  exact henters.inside (.entry henters.lt (by simp)) _ _

variable {env : InstId → Option V}

theorem isTerminator_of_target?
    (h : M.target? args env k = some b) : k.isTerminator = true := by
  cases k with
  | br | condBr => rfl
  | _ => cases h

theorem target?_of_isPlain (h : k.isPlain = true) : M.target? args env k = none := by
  cases k with
  | br | condBr => cases h
  | _ => rfl

theorem Step.kind {c d : Config V W} (h : M.Step f args c d) :
    ∃ i rest k, c.rest = i :: rest ∧ f.kind? i = some k := by
  cases h with
  | phi hrest hphi =>
    obtain ⟨incoming, hk⟩ := hphi
    exact ⟨_, _, _, hrest, hk⟩
  | plain hrest hinst _ _ _ => exact ⟨_, _, _, hrest, Function.kind?_eq hinst⟩
  | jump hrest hk _ _ => exact ⟨_, _, _, hrest, hk⟩

/-- A step says what kind of instruction is next. -/
theorem Step.next {c d : Config V W} (h : M.Step f args c d) (hrest : c.rest = i :: rest) (hk : f.kind? i = some k) :
    (∃ incoming, k = .phi incoming) ∧ d = { c with rest := rest } ∨
    k.isPlain = true ∧ (∃ inst values v w, f.inst? i = some inst ∧
      inst.kind.operands.mapM (M.eval args c.env) = some values ∧ M.perform i inst values c.world = some (v, w) ∧
      d = ⟨c.block, rest, Function.update c.env i (some v), w, c.trace ++ inst.kind.events values⟩) ∨
    (∃ b insts env, M.target? args c.env k = some b ∧ M.Enters f args (some c.block) c.env b insts env ∧
      d = ⟨b, insts, env, c.world, c.trace⟩) := by
  cases h with
  | phi hrest₂ hphi =>
    obtain ⟨rfl, rfl⟩ := List.cons.inj (hrest.symm.trans hrest₂)
    obtain ⟨incoming, hk₂⟩ := hphi
    exact Or.inl ⟨⟨incoming, Option.some.inj (hk.symm.trans hk₂)⟩, rfl⟩
  | @plain _ _ inst values v w hrest₂ hinst hplain hvalues hperform =>
    obtain ⟨rfl, rfl⟩ := List.cons.inj (hrest.symm.trans hrest₂)
    cases hk.symm.trans (Function.kind?_eq hinst)
    exact Or.inr (Or.inl ⟨hplain, inst, values, v, w, hinst, hvalues, hperform, rfl⟩)
  | @jump _ _ insts k₂ b env hrest₂ hk₂ htarget henters =>
    obtain ⟨rfl, rfl⟩ := List.cons.inj (hrest.symm.trans hrest₂)
    cases hk.symm.trans hk₂
    exact Or.inr (Or.inr ⟨b, insts, env, htarget, henters, rfl⟩)

theorem Returns.rest_eq {c : Config V W} {v : Option V} (h : M.Returns f args c v) :
    ∃ i rest k, c.rest = i :: rest ∧ f.kind? i = some k ∧ k.isTerminator = true := by
  cases h with
  | void hrest hk | value hrest hk _ => exact ⟨_, _, _, hrest, hk, rfl⟩

/-- A branch leads to a successor of the block it stands in. -/
theorem Inside.mem_successors (hf : f.WellFormed) {c : Config V W} (h : Inside f c)
    (hrest : c.rest = i :: rest) (hk : f.kind? i = some k)
    (htarget : M.target? args env k = some b) :
    b ∈ f.successors c.block := by
  obtain ⟨block, done, hblock, hinsts⟩ := h.place
  rw [hrest] at hinsts
  cases k with
  | br t =>
    rw [(hf.eq_terminator hblock hinsts hk rfl).2.2]
    cases htarget
    exact List.mem_singleton_self _
  | condBr cond t e =>
    rw [(hf.eq_terminator hblock hinsts hk rfl).2.2]
    obtain ⟨v, -, rfl⟩ := Option.map_eq_some_iff.mp htarget
    split_ifs <;> simp [InstKind.successors]
  | _ => cases htarget

theorem Inside.step (hf : f.WellFormed) {c d : Config V W} (h : Inside f c) (hstep : M.Step f args c d) :
    Inside f d := by
  obtain ⟨block, done, hblock, hinsts⟩ := h.place
  cases hstep with
  | @phi i rest hrest hphi => exact ⟨⟨block, done ++ [i], hblock, by simp [hinsts, hrest]⟩, h.reached⟩
  | @plain i rest inst values v w hrest _ _ _ _ =>
    exact ⟨⟨block, done ++ [i], hblock, by simp [hinsts, hrest]⟩, h.reached⟩
  | jump hrest hk htarget henters =>
    exact henters.inside (h.reached.step (h.mem_successors hf hrest hk htarget) henters.lt (by simp)) _ _

/-- At the start there are no results: the first block has no phis. -/
theorem Enters.start (h : M.Enters f args none (fun _ => none) 0 insts env) :
    (∀ i ∈ insts, ¬ f.IsPhi i) ∧ env = fun _ => none := by
  have hphi : ∀ i ∈ insts, ¬ f.IsPhi i := by
    rintro i hi ⟨incoming, hk⟩
    obtain ⟨v, hv, -⟩ := h.phis i hi incoming hk
    rw [M.phiValue?_start] at hv
    cases hv
  exact ⟨hphi, funext fun i => h.others i (hphi i)⟩

/-! ## 2. Promises about a table of intervals -/

/-- A value is an exact number that lies in an interval. -/
def LiesIn (M : Machine V W) (v : V) (i : Bound) : Prop := ∃ x, M.number? v = some x ∧ i.Holds x

end RangedIR.Machine

namespace RangedIR.InstKind

/-- Whether the instruction compares two values. -/
def isCompare : InstKind → Bool
  | icmp .. | fcmp .. => true
  | _ => false

/-- Whether the instruction is arithmetic on two values. -/
def isBinary : InstKind → Bool
  | binary .. => true
  | _ => false

variable {g : Operand → Operand} {k : InstKind}

@[simp] theorem isCompare_mapOperands : (k.mapOperands g).isCompare = k.isCompare := by cases k <;> rfl

@[simp] theorem isBinary_mapOperands : (k.mapOperands g).isBinary = k.isBinary := by cases k <;> rfl

theorem isPlain_of_isBinary (h : k.isBinary = true) : k.isPlain = true := by
  cases k with
  | binary => rfl
  | _ => cases h

end RangedIR.InstKind

namespace RangedIR.Machine

variable {V W : Type} {M : Machine V W} {f : Function} {args : List V}

/-- The operands of the comparison that is next lie in their intervals, if the table has
any. -/
def ComparesWithin (M : Machine V W) (f : Function) (id : FuncId) (b : Bounds) (args : List V)
    (c : Config V W) : Prop :=
  ∀ i rest k, c.rest = i :: rest → f.kind? i = some k → k.isCompare = true →
    ∀ op ∈ k.operands, ∀ key j v, ValueKey.ofOperand? id op = some key → b.get? key = some j →
      M.eval args c.env op = some v → M.LiesIn v j

/-- The result of the arithmetic that is next lies in its interval, if the table has one. -/
def ResultsWithin (M : Machine V W) (f : Function) (id : FuncId) (b : Bounds) (args : List V)
    (c : Config V W) : Prop :=
  ∀ i rest inst values v w j, c.rest = i :: rest → f.inst? i = some inst → inst.kind.isBinary = true →
    inst.kind.operands.mapM (M.eval args c.env) = some values →
    M.perform i inst values c.world = some (v, w) → b.get? (.inst id i) = some j → M.LiesIn v j

/-! ## 3. An instruction replaced by an operand -/

theorem mapM_map {α β : Type} {g g' : α → Option β} {h : α → α} {l : List α} {r : List β}
    (hg : ∀ x ∈ l, ∀ v, g x = some v → g' (h x) = some v) (hr : l.mapM g = some r) :
    (l.map h).mapM g' = some r := by
  induction l generalizing r with
  | nil => simpa using hr
  | cons x rest ih =>
    obtain ⟨v, hv, vs, hvs, rfl⟩ := mapM_cons_eq_some.mp hr
    exact mapM_cons_eq_some.mpr
      ⟨v, hg x List.mem_cons_self v hv, vs, ih (fun y hy => hg y (List.mem_cons_of_mem _ hy)) hvs, rfl⟩

/-- Points of a function and of the function in which an instruction was replaced by an
operand. In the blocks of `D` the two are equal. -/
structure Replaced (M : Machine V W) (f : Function) (args : List V) (i : InstId) (op : Operand)
    (D : BlockId → Prop) (c c' : Config V W) : Prop where
  block : c'.block = c.block
  rest : c'.rest = c.rest.filter (· != i)
  env : ∀ j, j ≠ i → c'.env j = c.env j
  world : c'.world = c.world
  trace : c'.trace = c.trace
  inside : Inside f c
  equal : D c.block → ∀ v, c.env i = some v → M.eval args c.env op = some v

section Replace

variable {i : InstId} {op : Operand} {D : BlockId → Prop} {c c' : Config V W} {b₀ : BlockId}

theorem eval_congr {env env' : InstId → Option V} (hop : op ≠ .inst i) (henv : ∀ j, j ≠ i → env' j = env j) :
    M.eval args env' op = M.eval args env op := by
  cases op with
  | inst j => exact henv j fun h => hop (h ▸ rfl)
  | _ => rfl

theorem Replaced.eval (h : Replaced M f args i op D c c') (hop : op ≠ .inst i) {x : Operand} {v : V}
    (hx : M.eval args c.env x = some v) (hD : x = .inst i → D c.block) :
    M.eval args c'.env (Function.substitute i op x) = some v := by
  unfold Function.substitute
  split_ifs with hxi
  · have hx' : x = .inst i := by
      cases x <;> simp_all [Operand.inst?]
    subst hx'
    rw [eval_congr hop h.env]
    exact h.equal (hD rfl) v hx
  · rw [eval_congr (fun hx' => hxi (by rw [hx']; rfl)) h.env]
    exact hx

variable {u : InstId} {rest : List InstId} {k : InstKind} {d : Config V W} {world : W} {v : Option V}

/-- What is next in the first function, unless it is the replaced instruction, is next in
the second. -/
theorem Replaced.rest_cons (h : Replaced M f args i op D c c')
    (hrest : c.rest = u :: rest) (hu : u ≠ i) : c'.rest = u :: rest.filter (· != i) := by
  rw [h.rest, hrest, List.filter_cons_of_pos (by simpa using hu)]

/-- The work of the replaced instruction itself has no counterpart. -/
theorem Replaced.pass (hf : f.WellFormed) (hterm : k.isTerminator = false) (hacts : k.actsOnWorld = false)
    (h : Replaced M f args i op D c c') (hrest : c.rest = i :: rest) (hk : f.kind? i = some k)
    (hd : M.Step f args c d)
    (hequal : D d.block → ∀ v, d.env i = some v → M.eval args d.env op = some v) :
    Replaced M f args i op D d c' := by
  have hinside : Inside f d := h.inside.step hf hd
  have hskip : c'.rest = rest.filter (· != i) := by
    rw [h.rest, hrest, List.filter_cons_of_neg (by simp)]
  rcases hd.next hrest hk with ⟨-, rfl⟩ | ⟨-, inst, values, v, w, hinst, -, hperform, rfl⟩ | ⟨_, _, _, htarget, -⟩
  · exact ⟨h.block, hskip, h.env, h.world, h.trace, hinside, hequal⟩
  · cases hk.symm.trans (Function.kind?_eq hinst)
    rw [Machine.perform, hacts, if_neg Bool.false_ne_true] at hperform
    obtain ⟨_, -, heq⟩ := Option.map_eq_some_iff.mp hperform
    cases heq
    refine ⟨h.block, hskip, fun j hj => ?_, h.world, ?_, hinside, hequal⟩
    · dsimp only
      rw [Function.update_of_ne hj]
      exact h.env j hj
    · simp [h.trace, InstKind.events_eq_nil hacts]
  · rw [isTerminator_of_target? htarget] at hterm
    cases hterm

/-- Both functions start at corresponding points. -/
theorem Starts.replaceBy (hf : f.WellFormed) (op : Operand) (D : BlockId → Prop)
    (h : M.Starts f args world c) :
    ∃ c', M.Starts (f.replaceBy i op) args world c' ∧ Replaced M f args i op D c c' := by
  have hinside := h.inside
  obtain ⟨henters⟩ := h
  obtain ⟨hphi, rfl⟩ := henters.start
  obtain ⟨block, hblock, rfl⟩ := Option.map_eq_some_iff.mp henters.block
  have henters' : M.Enters (f.replaceBy i op) args none (fun _ => none) 0 (block.insts.filter (· != i))
      (fun _ => none) := by
    refine ⟨?_, ?_, fun _ _ => rfl⟩
    · rw [f.blocks_replaceBy hf.toPlaced, hblock]
      rfl
    · intro j hj incoming hk
      obtain ⟨hj, hne⟩ := List.mem_filter.mp hj
      rw [bne_iff_ne] at hne
      obtain ⟨old, hkj, -⟩ := Function.phi_of_replaceBy (Function.mem_layout.mpr ⟨0, block, hblock, hj⟩) hne hk
      exact absurd ⟨old, hkj⟩ (hphi j hj)
  exact ⟨_, .intro henters', rfl, rfl, fun _ _ => rfl, rfl, rfl, hinside, fun _ v hv => by cases hv⟩

variable (hop : op ≠ .inst i) (hD : ∀ b, f.UsedIn i b → D b)

include hop hD

/-- A value of a phi on the way in is the same after the replacement. -/
theorem Replaced.phiValue? (h : Replaced M f args i op D c c') (hu : u ∈ f.layout)
    {incoming : List (Operand × BlockId)} (hk : f.kind? u = some (.phi incoming)) {v : V}
    (hv : M.phiValue? args c.env (some c.block) incoming = some v) :
    M.phiValue? args c'.env (some c'.block)
      (incoming.map fun e => (Function.substitute i op e.1, e.2)) = some v := by
  unfold Machine.phiValue? at hv ⊢
  obtain ⟨e, he, hv⟩ := Option.bind_eq_some_iff.mp hv
  have hmem : e ∈ incoming := List.mem_of_find?_eq_some he
  have hprev : c.block = e.2 := by simpa using List.find?_some he
  rw [List.find?_map, h.block]
  have hcomp : ((fun e : Operand × BlockId => some c.block == some e.2) ∘
      fun e : Operand × BlockId => (Function.substitute i op e.1, e.2)) = fun e => some c.block == some e.2 := rfl
  rw [hcomp, he, Option.map_some, Option.bind_some]
  refine h.eval hop hv fun hx => hD _ ?_
  obtain ⟨x, p⟩ := e
  subst hx
  rw [hprev]
  exact .phi hu hk hmem

/-- A step of the first function, if it is not made by the replaced instruction, is made
by the second. -/
theorem Replaced.step (hf : f.WellFormed) (h : Replaced M f args i op D c c')
    (hrest : c.rest = u :: rest) (hk : f.kind? u = some k) (hui : u ≠ i) (hd : M.Step f args c d)
    (hequal : D d.block → ∀ v, d.env i = some v → M.eval args d.env op = some v) :
    ∃ d', M.Step (f.replaceBy i op) args c' d' ∧ Replaced M f args i op D d d' := by
  have hlisted : u ∈ f.layout := Function.mem_layout.mpr ⟨_, h.inside.standsIn hrest⟩
  have hinside : Inside f d := h.inside.step hf hd
  have hrest' := h.rest_cons hrest hui
  obtain ⟨block, hblock, hmem⟩ := h.inside.standsIn hrest
  have hk' : (f.replaceBy i op).kind? u = some (k.mapOperands (Function.substitute i op)) := by
    rw [f.kind?_replaceBy op hlisted hui, hk]
    rfl
  have hused : (∀ incoming, k ≠ .phi incoming) → ∀ x ∈ k.operands, x = .inst i → D c.block := by
    rintro hphi x hx rfl
    exact hD _ (.plain hblock hmem hk hphi hx)
  rcases hd.next hrest hk with ⟨⟨incoming, rfl⟩, rfl⟩ | ⟨hplain, inst, values, v, w, hinst, hvalues, hperform, rfl⟩ |
      ⟨b, insts, env, htarget, henters, rfl⟩
  · exact ⟨_, .phi hrest' ⟨_, hk'⟩, h.block, rfl, h.env, h.world, h.trace, hinside, hequal⟩
  · cases hk.symm.trans (Function.kind?_eq hinst)
    have hinst' : (f.replaceBy i op).inst? u =
        some { inst with kind := inst.kind.mapOperands (Function.substitute i op) } := by
      rw [f.inst?_replaceBy op hlisted hui, hinst]
      rfl
    have hvalues' : (inst.kind.mapOperands (Function.substitute i op)).operands.mapM (M.eval args c'.env) =
        some values := by
      rw [InstKind.operands_mapOperands]
      refine mapM_map (fun x hx v hv => h.eval hop hv ?_) hvalues
      exact hused (InstKind.isPlain_iff.mp hplain).2 x hx
    have hperform' : M.perform u { inst with kind := inst.kind.mapOperands (Function.substitute i op) } values
        c'.world = some (v, w) := by
      rw [h.world, ← hperform]
      simp [Machine.perform]
    refine ⟨_, .plain hrest' hinst' (by simpa using hplain) hvalues' hperform', h.block, rfl, ?_, rfl, ?_, hinside,
      hequal⟩
    · intro j hj
      by_cases hju : j = u
      · subst hju
        simp
      · simp [hju, h.env j hj]
    · simp [h.trace]
  · have htarget' : M.target? args c'.env (k.mapOperands (Function.substitute i op)) = some b := by
      cases k with
      | br t => exact htarget
      | condBr cond t e =>
        obtain ⟨v, hv, hb⟩ := Option.map_eq_some_iff.mp htarget
        refine Option.map_eq_some_iff.mpr ⟨v, h.eval hop hv ?_, hb⟩
        exact hused (by simp) cond List.mem_cons_self
      | _ => cases htarget
    obtain ⟨target, htargetBlock, rfl⟩ := Option.map_eq_some_iff.mp henters.block
    have hlisted₂ : ∀ j ∈ target.insts, j ∈ f.layout := fun j hj =>
      Function.mem_layout.mpr ⟨b, target, htargetBlock, hj⟩
    have henters' : M.Enters (f.replaceBy i op) args (some c'.block) c'.env b (target.insts.filter (· != i))
        (fun j => if j = i then c'.env i else env j) := by
      refine ⟨?_, ?_, ?_⟩
      · rw [f.blocks_replaceBy hf.toPlaced, htargetBlock]
        rfl
      · intro j hj incoming hphi
        obtain ⟨hj, hne⟩ := List.mem_filter.mp hj
        rw [bne_iff_ne] at hne
        obtain ⟨old, hkj, rfl⟩ := Function.phi_of_replaceBy (hlisted₂ j hj) hne hphi
        obtain ⟨v, hv, henv⟩ := henters.phis j hj old hkj
        exact ⟨v, h.phiValue? hop hD (hlisted₂ j hj) hkj hv, by rw [if_neg hne]; exact henv⟩
      · intro j hj
        split_ifs with hji
        · rw [hji]
        · rw [h.env j hji]
          refine henters.others j fun hmem hphi => ?_
          obtain ⟨incoming, hkj⟩ := hphi
          refine hj (List.mem_filter.mpr ⟨hmem, by simpa using hji⟩)
            ⟨incoming.map fun e => (Function.substitute i op e.1, e.2), ?_⟩
          rw [f.kind?_replaceBy op (hlisted₂ j hmem) hji, hkj]
          rfl
    refine ⟨_, .jump hrest' hk' htarget' henters', rfl, rfl, ?_, h.world, h.trace, hinside, hequal⟩
    intro j hj
    exact if_neg hj

/-- A return yields the same value after the replacement. -/
theorem Replaced.returns (hnot : ∀ k, f.kind? i = some k → k.isTerminator = false)
    (h : Replaced M f args i op D c c') (hv : M.Returns f args c v) :
    M.Returns (f.replaceBy i op) args c' v := by
  have hkind : ∀ {u rest k}, c.rest = u :: rest → f.kind? u = some k → k.isTerminator = true →
      c'.rest = u :: rest.filter (· != i) ∧
        (f.replaceBy i op).kind? u = some (k.mapOperands (Function.substitute i op)) := by
    intro u rest k hrest hk hterm
    have hui : u ≠ i := by
      rintro rfl
      rw [hnot k hk] at hterm
      cases hterm
    have hlisted : u ∈ f.layout := Function.mem_layout.mpr ⟨_, h.inside.standsIn hrest⟩
    refine ⟨h.rest_cons hrest hui, ?_⟩
    rw [f.kind?_replaceBy op hlisted hui, hk]
    rfl
  cases hv with
  | void hrest hk =>
    obtain ⟨hrest', hk'⟩ := hkind hrest hk rfl
    exact .void hrest' hk'
  | @value u rest ty x v hrest hk hx =>
    obtain ⟨hrest', hk'⟩ := hkind hrest hk rfl
    obtain ⟨block, hblock, hmem⟩ := h.inside.standsIn hrest
    refine .value hrest' hk' (h.eval hop hx ?_)
    rintro rfl
    exact hD _ (.plain hblock hmem hk (by simp) (by simp [InstKind.operands]))

/-- An execution of a function is one of the function in which an instruction was
replaced by an operand, if wherever the instruction is used the two stay equal from step
to step. -/
theorem Finishes.replaceBy {P P' : Config V W → Prop} (hf : f.WellFormed)
    (hquiet : ∀ k, f.kind? i = some k → k.isTerminator = false ∧ k.actsOnWorld = false)
    (hequal : ∀ c d, P c → Inside f c → (D c.block → ∀ v, c.env i = some v → M.eval args c.env op = some v) →
      M.Step f args c d → D d.block → ∀ v, d.env i = some v → M.eval args d.env op = some v)
    (hP : ∀ c c' d u rest, P c → Replaced M f args i op D c c' → c.rest = u :: rest → u ≠ i →
      (M.Step f args c d ∨ ∃ v, M.Returns f args c v) → P' c')
    {trace : List (Event V)} (hstart : M.Starts f args world c)
    (h : M.Finishes f args P c v trace) :
    ∃ c', M.Starts (f.replaceBy i op) args world c' ∧ M.Finishes (f.replaceBy i op) args P' c' v trace := by
  obtain ⟨c', hstart', hc⟩ := hstart.replaceBy hf op D
  refine ⟨c', hstart', h.simulate (R := Replaced M f args i op D) ?_ ?_ hc⟩
  · intro c d c' hc hr hd
    have heq := hequal c d hc hr.inside hr.equal hd
    obtain ⟨u, rest, k, hrest, hk⟩ := hd.kind
    by_cases hui : u = i
    · subst hui
      exact Or.inl (hr.pass hf (hquiet k hk).1 (hquiet k hk).2 hrest hk hd heq)
    · obtain ⟨d', hd', hr'⟩ := hr.step hop hD hf hrest hk hui hd heq
      exact Or.inr ⟨d', hP c c' d u rest hc hr hrest hui (Or.inl hd), hd', hr'⟩
  · intro c c' v hc hr hv
    obtain ⟨u, rest, k, hrest, hk, hterm⟩ := hv.rest_eq
    have hui : u ≠ i := by
      rintro rfl
      rw [(hquiet k hk).1] at hterm
      cases hterm
    exact ⟨hP c c' c u rest hc hr hrest hui (Or.inr ⟨v, hv⟩),
      hr.returns hop hD (fun k hk => (hquiet k hk).1) hv, hr.trace⟩

end Replace

/-! ## 4. Promises that are carried over -/

variable {u : InstId} {rest : List InstId} {i : InstId} {D : BlockId → Prop} {id : FuncId} {b : Bounds}

/-- Where an execution goes on with an instruction that stands for itself, the operands
have values. -/
theorem exists_values {c d : Config V W} {inst : Inst}
    (hrest : c.rest = u :: rest) (hinst : f.inst? u = some inst) (hplain : inst.kind.isPlain = true)
    (hgo : M.Step f args c d ∨ ∃ v, M.Returns f args c v) :
    ∃ values, inst.kind.operands.mapM (M.eval args c.env) = some values := by
  have hk := Function.kind?_eq hinst
  rcases hgo with hd | ⟨v, hv⟩
  · rcases hd.next hrest hk with ⟨⟨_, hphi⟩, -⟩ | ⟨-, inst₂, values, _, _, hinst₂, hvalues, -⟩ | ⟨_, _, _, htarget, -⟩
    · rw [hphi] at hplain
      cases hplain
    · cases hinst.symm.trans hinst₂
      exact ⟨values, hvalues⟩
    · rw [target?_of_isPlain hplain] at htarget
      cases htarget
  · obtain ⟨u₂, rest₂, k, hrest₂, hk₂, hret⟩ := hv.rest_eq
    obtain ⟨rfl, -⟩ := List.cons.inj (hrest.symm.trans hrest₂)
    cases hk.symm.trans hk₂
    rw [(InstKind.isPlain_iff.mp hplain).1] at hret
    cases hret

/-- The promise about arithmetic survives the replacement of an instruction. -/
theorem Replaced.resultsWithin {op : Operand} {c c' d : Config V W} (hop : op ≠ .inst i)
    (hD : ∀ b, f.UsedIn i b → D b) (hP : ResultsWithin M f id b args c)
    (h : Replaced M f args i op D c c') (hrest : c.rest = u :: rest)
    (hui : u ≠ i) (hgo : M.Step f args c d ∨ ∃ v, M.Returns f args c v) :
    ResultsWithin M (f.replaceBy i op) id b args c' := by
  intro u' rest' inst' values v w j hrest' hinst' hbinary hvalues hperform hj
  obtain ⟨rfl, -⟩ := List.cons.inj ((h.rest_cons hrest hui).symm.trans hrest')
  obtain ⟨block, hblock, hmem⟩ := h.inside.standsIn hrest
  have hlisted : u ∈ f.layout := Function.mem_layout.mpr ⟨_, block, hblock, hmem⟩
  rw [f.inst?_replaceBy op hlisted hui] at hinst'
  obtain ⟨inst, hinst, rfl⟩ := Option.map_eq_some_iff.mp hinst'
  dsimp only at hbinary hvalues
  rw [InstKind.isBinary_mapOperands] at hbinary
  have hplain := InstKind.isPlain_of_isBinary hbinary
  obtain ⟨old, hold⟩ := exists_values hrest hinst hplain hgo
  have hnew : (inst.kind.mapOperands (Function.substitute i op)).operands.mapM (M.eval args c'.env) =
      some old := by
    rw [InstKind.operands_mapOperands]
    refine mapM_map (fun x hx v hv => h.eval hop hv ?_) hold
    rintro rfl
    exact hD _ (.plain hblock hmem (Function.kind?_eq hinst) (InstKind.isPlain_iff.mp hplain).2 hx)
  rw [hnew, Option.some.injEq] at hvalues
  subst hvalues
  refine hP u rest inst old v w j hrest hinst hbinary hold ?_ hj
  rw [← hperform, h.world]
  simp [Machine.perform]

/-- The promise about comparisons survives the replacement of an instruction by a
literal. -/
theorem Replaced.comparesWithin {k : Constant} {c c' : Config V W}
    (hP : ComparesWithin M f id b args c) (h : Replaced M f args i (.const k) D c c')
    (hrest : c.rest = u :: rest) (hui : u ≠ i) :
    ComparesWithin M (f.replaceBy i (.const k)) id b args c' := by
  intro u' rest' kind' hrest' hkind' hcompare x' hx' key j v hkey hj hv
  obtain ⟨rfl, -⟩ := List.cons.inj ((h.rest_cons hrest hui).symm.trans hrest')
  rw [f.kind?_replaceBy _ (Function.mem_layout.mpr ⟨_, h.inside.standsIn hrest⟩) hui] at hkind'
  obtain ⟨kind, hkind, rfl⟩ := Option.map_eq_some_iff.mp hkind'
  rw [InstKind.operands_mapOperands] at hx'
  obtain ⟨x, hx, rfl⟩ := List.mem_map.mp hx'
  unfold Function.substitute at hkey hv
  split_ifs at hkey hv with hxi
  · cases hkey
  · rw [eval_congr (fun hx' => hxi (by rw [hx']; rfl)) h.env] at hv
    exact hP u rest kind hrest hkind (by simpa using hcompare) x hx key j v hkey hj hv

/-- Executions of a well-formed function that keep a promise are executions of another
one that keep it there, with the same result and the same events. -/
def Carries (M : Machine V W) (args : List V) (P : Function → Config V W → Prop) (f g : Function) : Prop :=
  ∀ world c v trace, f.WellFormed → M.Starts f args world c → M.Finishes f args (P f) c v trace →
    g.WellFormed ∧ ∃ c', M.Starts g args world c' ∧ M.Finishes g args (P g) c' v trace

theorem Carries.refl (P : Function → Config V W → Prop) (f : Function) : M.Carries args P f f :=
  fun _ c _ _ hf hs h => ⟨hf, c, hs, h⟩

theorem Carries.trans {P : Function → Config V W → Prop} {h : Function} (h₁ : M.Carries args P f g)
    (h₂ : M.Carries args P g h) : M.Carries args P f h := by
  intro world c v trace hf hs hc
  obtain ⟨hg, c', hs', hc'⟩ := h₁ world c v trace hf hs hc
  exact h₂ world c' v trace hg hs' hc'

end RangedIR.Machine
