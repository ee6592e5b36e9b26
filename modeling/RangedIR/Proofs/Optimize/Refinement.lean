/-
RangedIR.Proofs.Optimize.Refinement — the rewriting passes keep what a function does.

Control flow is simplified and arithmetic is replaced by literals. An execution in which
the values keep to the table is an execution of the rewritten function with the same
result, the same stores and the same calls, as long as the literals that are compared
are numbers of the format.
-/
import RangedIR.Proofs.Optimize.Replacement
import RangedIR.Proofs.Optimize.Unreachable

namespace RangedIR.Machine

open Number RangedIR.Function

variable {V W : Type} {M : Machine V W} {args : List V} {f : Function}

/-! ## 1. Executions are determined -/

theorem Enters.unique {prev : Option BlockId} {env env₁ env₂ : InstId → Option V} {b : BlockId}
    {insts₁ insts₂ : List InstId} (h₁ : M.Enters f args prev env b insts₁ env₁)
    (h₂ : M.Enters f args prev env b insts₂ env₂) : insts₁ = insts₂ ∧ env₁ = env₂ := by
  have hinsts : insts₁ = insts₂ := Option.some.inj (h₁.block.symm.trans h₂.block)
  subst hinsts
  refine ⟨rfl, funext fun i => ?_⟩
  by_cases hphi : i ∈ insts₁ ∧ f.IsPhi i
  · obtain ⟨hi, incoming, hk⟩ := hphi
    obtain ⟨v, hv, henv₁⟩ := h₁.phis i hi incoming hk
    obtain ⟨w, hw, henv₂⟩ := h₂.phis i hi incoming hk
    rw [henv₁, henv₂, ← hv, ← hw]
  · have hother : i ∈ insts₁ → ¬ f.IsPhi i := fun hi h => hphi ⟨hi, h⟩
    rw [h₁.others i hother, h₂.others i hother]

variable {c d : Config V W} {i : InstId} {rest : List InstId} {k : InstKind}

theorem Starts.unique {world : W} (hc : M.Starts f args world c) (hd : M.Starts f args world d) : c = d := by
  obtain ⟨hc⟩ := hc
  obtain ⟨hd⟩ := hd
  obtain ⟨rfl, rfl⟩ := hc.unique hd
  rfl

/-- There is one step from a point. -/
theorem Step.unique {d₁ d₂ : Config V W} (h₁ : M.Step f args c d₁) (h₂ : M.Step f args c d₂) : d₁ = d₂ := by
  obtain ⟨i, rest, k, hrest, hk⟩ := h₁.kind
  rcases h₁.next hrest hk with ⟨⟨incoming, rfl⟩, rfl⟩ | ⟨hplain, inst, values, v, w, hinst, hvalues, hperform, rfl⟩ |
      ⟨b, insts, env, htarget, henters, rfl⟩
  · rcases h₂.next hrest hk with ⟨-, rfl⟩ | ⟨hplain, -⟩ | ⟨_, _, _, htarget, -⟩
    · rfl
    · cases hplain
    · cases htarget
  · rcases h₂.next hrest hk with ⟨⟨incoming, rfl⟩, -⟩ | ⟨-, inst₂, values₂, v₂, w₂, hinst₂, hvalues₂, hperform₂, rfl⟩ |
        ⟨_, _, _, htarget, -⟩
    · cases hplain
    · cases hinst.symm.trans hinst₂
      cases hvalues.symm.trans hvalues₂
      cases hperform.symm.trans hperform₂
      rfl
    · rw [target?_of_isPlain hplain] at htarget
      cases htarget
  · rcases h₂.next hrest hk with ⟨⟨incoming, rfl⟩, -⟩ | ⟨hplain, -⟩ | ⟨b₂, insts₂, env₂, htarget₂, henters₂, rfl⟩
    · cases htarget
    · rw [target?_of_isPlain hplain] at htarget
      cases htarget
    · cases htarget.symm.trans htarget₂
      obtain ⟨rfl, rfl⟩ := henters.unique henters₂
      rfl

/-- At a return there is no step, and one result. -/
theorem Returns.unique {v : Option V} (h : M.Returns f args c v) :
    (∀ d, ¬ M.Step f args c d) ∧ ∀ w, M.Returns f args c w → v = w := by
  have hnone : ∀ {i rest r}, c.rest = i :: rest → f.kind? i = some (.ret r) → ∀ d, ¬ M.Step f args c d := by
    intro i rest r hrest hk d hd
    rcases hd.next hrest hk with ⟨⟨_, hphi⟩, -⟩ | ⟨hplain, -⟩ | ⟨_, _, _, htarget, -⟩
    · cases hphi
    · cases hplain
    · cases htarget
  cases h with
  | void hrest hk =>
    refine ⟨hnone hrest hk, fun w hw => ?_⟩
    cases hw with
    | void => rfl
    | value hrest₂ hk₂ _ =>
      obtain ⟨rfl, -⟩ := List.cons.inj (hrest.symm.trans hrest₂)
      cases hk.symm.trans hk₂
  | value hrest hk hv =>
    refine ⟨hnone hrest hk, fun w hw => ?_⟩
    cases hw with
    | void hrest₂ hk₂ =>
      obtain ⟨rfl, -⟩ := List.cons.inj (hrest.symm.trans hrest₂)
      cases hk.symm.trans hk₂
    | value hrest₂ hk₂ hv₂ =>
      obtain ⟨rfl, -⟩ := List.cons.inj (hrest.symm.trans hrest₂)
      cases hk.symm.trans hk₂
      exact hv.symm.trans hv₂

/-- An execution that comes to an end has one result and is seen to do one thing. -/
theorem Finishes.unique {P Q : Config V W → Prop} {v w : Option V} {s t : List (Event V)}
    (h₁ : M.Finishes f args P c v s) (h₂ : M.Finishes f args Q c w t) : v = w ∧ s = t := by
  induction h₁ with
  | done _ hv =>
    cases h₂ with
    | done _ hw => exact ⟨hv.unique.2 _ hw, rfl⟩
    | next _ hd _ => exact absurd hd (hv.unique.1 _)
  | next _ hd _ ih =>
    cases h₂ with
    | done _ hw => exact absurd hd (hw.unique.1 _)
    | next _ hd₂ h₂ => exact ih (hd.unique hd₂ ▸ h₂)

/-! ## 2. The passes -/

/-- A function with branches folded and the blocks gone that are not reached. -/
def straightened (f : Function) : Function :=
  (foldBranches (List.range f.blocks.length) f).1.dropStaleIncoming.removeUnreachable.1

theorem simplifyControlFlow_fst (f : Function) (id : FuncId) (b : Bounds) :
    (f.simplifyControlFlow id b).1 =
      (collapsePhis (straightened (foldCompares id b f.layout f).1).layout
        (straightened (foldCompares id b f.layout f).1)).1 := by
  unfold simplifyControlFlow straightened
  rcases foldCompares id b f.layout f with ⟨f₁, compares⟩
  dsimp only

/-- Everything that follows the folding of comparisons. -/
theorem carries_folded (hM : M.Lawful) {id : FuncId} {b : Bounds} (f : Function) :
    M.Carries args (fun f => ResultsWithin M f id b args) (foldCompares id b f.layout f).1
      ((f.simplifyControlFlow id b).1.substituteConstants id b).1 := by
  have hstraight : ∀ g, M.Carries args (fun f => ResultsWithin M f id b args) g (straightened g) := fun g =>
    ((carries_foldBranches hM _ g).trans (carries_dropStaleIncoming hM _)).trans (carries_removeUnreachable _)
  rw [simplifyControlFlow_fst]
  exact ((hstraight _).trans (carries_collapsePhis _)).trans (carries_substituteConstants hM _)

/-- Simplifying the control flow of a function and replacing arithmetic by literals keeps
what the function does: an execution of the function that ends, and in which all values
keep to the table, is matched by one of the rewritten function from the same arguments
and the same world, and every execution of the rewritten function from there has the same
result, the same stores and the same calls. -/
theorem rewritten_refines (hM : M.Lawful) (hf : f.WellFormed) (hexact : f.ComparesExact) {id : FuncId} {b : Bounds}
    {world : W} {c : Config V W} {v : Option V} {trace : List (Event V)} (hs : M.Starts f args world c)
    (hc : M.Finishes f args (M.Within id b args f) c v trace) :
    (∃ c', M.Starts ((f.simplifyControlFlow id b).1.substituteConstants id b).1 args world c' ∧
      M.Finishes ((f.simplifyControlFlow id b).1.substituteConstants id b).1 args (fun _ => True) c' v trace) ∧
    ∀ c' v' trace', M.Starts ((f.simplifyControlFlow id b).1.substituteConstants id b).1 args world c' →
      M.Finishes ((f.simplifyControlFlow id b).1.substituteConstants id b).1 args (fun _ => True) c' v' trace' →
      v' = v ∧ trace' = trace := by
  obtain ⟨hf₁, c₁, hs₁, hc₁⟩ := carries_foldCompares hM f.layout f hf.nodup (fun i hi => Function.mem_layout.mp hi)
    hexact world c v trace hf hs hc
  -- No comparison is looked up any more, so only the promise about arithmetic goes on.
  obtain ⟨-, c', hs', hc'⟩ := carries_folded hM f world c₁ v trace hf₁ hs₁ (hc₁.mono fun _ hP => hP.2)
  refine ⟨⟨c', hs', hc'.mono fun _ _ => trivial⟩, fun c₂ v₂ trace₂ hs₂ hc₂ => ?_⟩
  rw [hs₂.unique hs'] at hc₂
  exact hc₂.unique hc'

/-! ## 3. An example -/

/-- A function that counts one further, for numbers below ten. -/
def successor : Function where
  name := "successor"
  retTy := .int 32
  params := [⟨"x", .int 32⟩]
  rangeType := none
  blocks := [⟨"entry", [0, 1]⟩, ⟨"small", [2, 3, 4, 5]⟩, ⟨"large", [6]⟩]
  insts :=
    [⟨some "c", .icmp .slt (.int 32) (.arg 0) (.const (.int 10)), .int 1, none, 0, false⟩,
      ⟨none, .condBr (.inst 0) 1 2, .void, none, 0, false⟩,
      ⟨some "p", .phi [(.arg 0, 0)], .int 32, none, 1, false⟩,
      ⟨some "s", .binary .add (.inst 2) (.const (.int 1)), .int 32, none, 1, false⟩,
      ⟨none, .call "use" [(.int 32, .inst 3)], .void, none, 1, false⟩,
      ⟨none, .ret (some (.int 32, .inst 3)), .void, none, 1, false⟩,
      ⟨none, .ret (some (.int 32, .const (.int 0))), .void, none, 2, false⟩]

/-- The argument is three, and the sum four. -/
def successorBounds : Bounds :=
  ((Bounds.ofSeeds .empty).insert (.arg 0 0) (.singleton 3.0)).insert (.inst 0 3) (.singleton 4.0)

theorem comparesExact_successor : successor.ComparesExact := by
  intro u b k hu hk hcompare c hc
  have hmem : u ∈ successor.layout := mem_layout.mpr ⟨b, hu⟩
  simp only [successor, layout, List.flatMap_cons, List.flatMap_nil, List.cons_append, List.nil_append,
    List.append_nil, List.mem_cons, List.not_mem_nil, or_false] at hmem
  rcases hmem with rfl | rfl | rfl | rfl | rfl | rfl | rfl <;> cases hk
  · obtain rfl : c = .int 10 := by simpa [InstKind.operands] using hc
    exact (denotes_ofInt (by norm_num)).exact
  all_goals cases hcompare

/-- Where neither a comparison nor arithmetic is next, there is nothing to promise. -/
theorem within_of_other {id : FuncId} {b : Bounds}
    (hrest : c.rest = i :: rest) (hk : f.kind? i = some k) (hcompare : k.isCompare = false)
    (hbinary : k.isBinary = false) : M.Within id b args f c := by
  refine ⟨?_, ?_⟩
  · intro i₂ rest₂ k₂ hrest₂ hk₂ hcompare₂
    obtain ⟨rfl, -⟩ := List.cons.inj (hrest.symm.trans hrest₂)
    cases hk.symm.trans hk₂
    rw [hcompare] at hcompare₂
    cases hcompare₂
  · intro i₂ rest₂ inst₂ values v w j hrest₂ hinst₂ hbinary₂
    obtain ⟨rfl, -⟩ := List.cons.inj (hrest.symm.trans hrest₂)
    cases hk.symm.trans (kind?_eq hinst₂)
    rw [hbinary] at hbinary₂
    cases hbinary₂

theorem Step.of_plain {inst : Inst} {values : List V} {v : V}
    {w : W} (hrest : c.rest = i :: rest) (hinst : f.inst? i = some inst) (hplain : inst.kind.isPlain = true)
    (hvalues : inst.kind.operands.mapM (M.eval args c.env) = some values)
    (hperform : M.perform i inst values c.world = some (v, w))
    (hd : ⟨c.block, rest, Function.update c.env i (some v), w, c.trace ++ inst.kind.events values⟩ = d) :
    M.Step f args c d :=
  hd ▸ .plain hrest hinst hplain hvalues hperform

/-- The function counts from three to four. -/
theorem successor_run : ∃ c, exactNumbers.Starts successor [some (whole 3)] () c ∧
    exactNumbers.Finishes successor [some (whole 3)]
      (exactNumbers.Within 0 successorBounds [some (whole 3)] successor) c (some (some (whole 4)))
      [.call "use" [some (whole 4)]] := by
  have hstart : exactNumbers.Starts successor [some (whole 3)] () ⟨0, [0, 1], fun _ => none, (), []⟩ := by
    refine .intro ⟨rfl, ?_, fun _ _ => rfl⟩
    intro i hi incoming hphi
    simp only [List.mem_cons, List.not_mem_nil, or_false] at hi
    rcases hi with rfl | rfl <;> cases hphi
  have hless : IntPredicate.slt.order.Holds (whole 3) (whole 10) := not_le.mp fun h => by
    have := whole_le.mp h
    omega
  have hsum : whole 3 + whole 1 = whole 4 := by
    unfold whole
    rw [← WithBot.coe_add, ← WithTop.coe_add]
    norm_num
  -- The five steps: compare, branch, phi, sum, call.
  set e₁ : InstId → Option (Option Extended) := Function.update (fun _ => none) 0 (some (some (whole 1)))
  set e₂ := Function.update e₁ 2 (some (some (whole 3)))
  set e₃ := Function.update e₂ 3 (some (some (whole 4)))
  set e₄ := Function.update e₃ 4 (some none)
  have h₁ : exactNumbers.Step successor [some (whole 3)] ⟨0, [0, 1], fun _ => none, (), []⟩ ⟨0, [1], e₁, (), []⟩ := by
    refine .of_plain rfl rfl rfl rfl (v := some (whole 1)) ?_ rfl
    change some ((Constant.bool (decide (IntPredicate.slt.order.Holds (whole 3) (whole 10)))).number?, ()) = _
    rw [decide_eq_true hless]
    rfl
  have h₂ : exactNumbers.Step successor [some (whole 3)] ⟨0, [1], e₁, (), []⟩ ⟨1, [2, 3, 4, 5], e₂, (), []⟩ := by
    have hone : (some (whole 1) : Option Extended) ≠ some 0 := fun h => by
      simpa [whole] using Option.some.inj h
    refine .jump rfl rfl (congrArg some (if_neg hone)) ⟨rfl, ?_, ?_⟩
    · intro i hi incoming hphi
      simp only [List.mem_cons, List.not_mem_nil, or_false] at hi
      rcases hi with rfl | rfl | rfl | rfl <;> cases hphi
      exact ⟨_, rfl, rfl⟩
    · intro i hi
      refine Function.update_of_ne ?_ _ _
      rintro rfl
      exact hi (by simp) ⟨_, rfl⟩
  have h₃ : exactNumbers.Step successor [some (whole 3)] ⟨1, [2, 3, 4, 5], e₂, (), []⟩ ⟨1, [3, 4, 5], e₂, (), []⟩ :=
    .phi rfl ⟨_, rfl⟩
  have h₄ : exactNumbers.Step successor [some (whole 3)] ⟨1, [3, 4, 5], e₂, (), []⟩ ⟨1, [4, 5], e₃, (), []⟩ := by
    refine .of_plain rfl rfl rfl rfl (v := some (whole 4)) ?_ rfl
    change some (some (whole 3 + whole 1), ()) = _
    rw [hsum]
  have h₅ : exactNumbers.Step successor [some (whole 3)] ⟨1, [4, 5], e₃, (), []⟩
      ⟨1, [5], e₄, (), [.call "use" [some (whole 4)]]⟩ := .of_plain rfl rfl rfl rfl rfl rfl
  have hreturn : exactNumbers.Returns successor [some (whole 3)] ⟨1, [5], e₄, (), [.call "use" [some (whole 4)]]⟩
      (some (some (whole 4))) := .value rfl rfl rfl
  refine ⟨_, hstart, .next ?_ h₁ (.next ?_ h₂ (.next ?_ h₃ (.next ?_ h₄ (.next ?_ h₅ (.done ?_ hreturn)))))⟩
  · refine ⟨?_, ?_⟩
    · intro i rest k hrest hk _ op hop key j v hkey hj hv
      cases hrest
      cases hk
      simp only [InstKind.operands, List.mem_cons, List.not_mem_nil, or_false] at hop
      rcases hop with rfl | rfl
      · cases hkey
        cases hv
        obtain rfl : Interval.singleton 3.0 = j := Option.some.inj hj
        exact ⟨_, rfl, (Interval.holds_iff_contains (by norm_num)).mpr (by decide)⟩
      · cases hkey
    · intro i rest inst values v w j hrest hinst hbinary
      cases hrest
      cases hinst
      cases hbinary
  · exact within_of_other rfl rfl rfl rfl
  · exact within_of_other rfl rfl rfl rfl
  · refine ⟨?_, ?_⟩
    · intro i rest k hrest hk hcompare
      cases hrest
      cases hk
      cases hcompare
    · intro i rest inst values v w j hrest hinst _ hvalues hperform hj
      cases hrest
      cases hinst
      obtain rfl : [some (whole 3), some (whole 1)] = values := Option.some.inj hvalues
      have hv : some (whole 3 + whole 1) = v := (Prod.mk.inj (Option.some.inj hperform)).1
      obtain rfl : Interval.singleton 4.0 = j := Option.some.inj hj
      rw [← hv, hsum]
      exact ⟨_, rfl, (Interval.holds_iff_contains (by norm_num)).mpr (by decide)⟩
  · exact within_of_other rfl rfl rfl rfl
  · exact within_of_other rfl rfl rfl rfl

/-- Comparison, branch, phi and sum are gone from the function; it is still seen to call
with four, and returns four. -/
theorem rewritten_refines_successor :
    successor.WellFormed ∧ successor.ComparesExact ∧
    (((successor.simplifyControlFlow 0 successorBounds).1.substituteConstants 0 successorBounds).1.blocks.map
      (·.insts)) = [[1], [4, 5]] ∧
    ∃ c', exactNumbers.Starts
        ((successor.simplifyControlFlow 0 successorBounds).1.substituteConstants 0 successorBounds).1
        [some (whole 3)] () c' ∧
      exactNumbers.Finishes
        ((successor.simplifyControlFlow 0 successorBounds).1.substituteConstants 0 successorBounds).1
        [some (whole 3)] (fun _ => True) c' (some (some (whole 4))) [.call "use" [some (whole 4)]] := by
  have hf : successor.WellFormed := Function.wellFormed_of_isWellFormed (by decide)
  obtain ⟨c, hs, hc⟩ := successor_run
  exact ⟨hf, comparesExact_successor, by decide,
    (rewritten_refines lawful_exactNumbers hf comparesExact_successor hs hc).1⟩

/-- Two neighbouring integers that have the same binary64 number, compared. -/
def neighbours : Function where
  name := "neighbours"
  retTy := .int 32
  params := []
  rangeType := none
  blocks := [⟨"entry", [0, 1]⟩, ⟨"same", [2]⟩, ⟨"different", [3]⟩]
  insts :=
    [⟨some "c", .icmp .eq (.int 64) (.const (.int 9007199254740993)) (.const (.int 9007199254740992)), .int 1, none,
        0, false⟩,
      ⟨none, .condBr (.inst 0) 1 2, .void, none, 0, false⟩,
      ⟨none, .ret (some (.int 32, .const (.int 1))), .void, none, 1, false⟩,
      ⟨none, .ret (some (.int 32, .const (.int 2))), .void, none, 2, false⟩]

/-- A literal that is compared and rounded changes what a function returns: the function
tells the neighbours apart, and the rewritten one does not. -/
theorem rounded_literal_changes_result :
    neighbours.WellFormed ∧
    (∃ c, exactNumbers.Starts neighbours [] () c ∧ exactNumbers.Finishes neighbours []
      (exactNumbers.Within 0 (.ofSeeds .empty) [] neighbours) c (some (some (whole 2))) []) ∧
    ∃ c', exactNumbers.Starts
        ((neighbours.simplifyControlFlow 0 (.ofSeeds .empty)).1.substituteConstants 0 (.ofSeeds .empty)).1 [] () c' ∧
      exactNumbers.Finishes
        ((neighbours.simplifyControlFlow 0 (.ofSeeds .empty)).1.substituteConstants 0 (.ofSeeds .empty)).1 []
        (fun _ => True) c' (some (some (whole 1))) [] := by
  refine ⟨Function.wellFormed_of_isWellFormed (by decide), ?_, ?_⟩
  · have hstart : exactNumbers.Starts neighbours [] () ⟨0, [0, 1], fun _ => none, (), []⟩ := by
      refine .intro ⟨rfl, ?_, fun _ _ => rfl⟩
      intro i hi incoming hphi
      simp only [List.mem_cons, List.not_mem_nil, or_false] at hi
      rcases hi with rfl | rfl <;> cases hphi
    have hdiffer : ¬ IntPredicate.eq.order.Holds (whole 9007199254740993) (whole 9007199254740992) := fun h => by
      have := whole_injective h
      omega
    set e₁ : InstId → Option (Option Extended) := Function.update (fun _ => none) 0 (some (some (whole 0)))
    have h₁ : exactNumbers.Step neighbours [] ⟨0, [0, 1], fun _ => none, (), []⟩ ⟨0, [1], e₁, (), []⟩ := by
      refine .of_plain rfl rfl rfl rfl (v := some (whole 0)) ?_ rfl
      change some ((Constant.bool
        (decide (IntPredicate.eq.order.Holds (whole 9007199254740993) (whole 9007199254740992)))).number?, ()) = _
      rw [decide_eq_false hdiffer]
      rfl
    have h₂ : exactNumbers.Step neighbours [] ⟨0, [1], e₁, (), []⟩ ⟨2, [3], e₁, (), []⟩ := by
      have hzero : (some (whole 0) : Option Extended) = some 0 := by simp [whole]
      refine .jump rfl rfl (congrArg some (if_pos hzero)) ⟨rfl, ?_, fun _ _ => rfl⟩
      intro i hi incoming hphi
      obtain rfl := List.mem_singleton.mp hi
      cases hphi
    refine ⟨_, hstart, .next ?_ h₁ (.next (within_of_other rfl rfl rfl rfl) h₂
      (.done (within_of_other rfl rfl rfl rfl) (.value rfl rfl rfl)))⟩
    refine ⟨?_, ?_⟩
    · intro i rest k hrest hk _ op hop key j v hkey
      cases hrest
      cases hk
      simp only [InstKind.operands, List.mem_cons, List.not_mem_nil, or_false] at hop
      rcases hop with rfl | rfl <;> cases hkey
    · intro i rest inst values v w j hrest hinst hbinary
      cases hrest
      cases hinst
      cases hbinary
  · refine ⟨⟨0, [1], fun _ => none, (), []⟩, .intro ⟨rfl, ?_, fun _ _ => rfl⟩, .next trivial (.jump rfl rfl rfl
      ⟨rfl, ?_, fun _ _ => rfl⟩) (.done trivial (.value rfl rfl rfl))⟩
    · intro i hi incoming hphi
      obtain rfl := List.mem_singleton.mp hi
      cases hphi
    · intro i hi incoming hphi
      obtain rfl := List.mem_singleton.mp hi
      cases hphi

end RangedIR.Machine
