/-
RangedIR.Proofs.Semantics.Lawful — machines whose values are exact numbers.

A literal of such a machine is the number that is written, comparisons compare numbers,
and a number is one value. What intervals decide about a comparison, and what they say
about the result of an instruction, is then so in every execution.
-/
import RangedIR.Proofs.Code.Literal
import RangedIR.Proofs.Semantics.Simulation

namespace RangedIR

open Number

/-! ## 1. The laws -/

namespace Machine

/-- Values are known by their numbers. Unsigned comparisons of negative numbers, and
comparisons of what is not a number, are left open. -/
structure Lawful {V W : Type} (M : Machine V W) : Prop where
  unique : ∀ {v w : V} {x : Extended}, M.number? v = some x → M.number? w = some x → v = w
  literal : ∀ c, M.number? (M.literal c) = c.number?
  icmp : ∀ {p : IntPredicate} {ty resultTy : Ty} {v w r : V} {x y : Extended}, M.number? v = some x →
    M.number? w = some y → (p.isUnsigned = true → 0 ≤ x ∧ 0 ≤ y) →
    M.compute (.icmp p ty .undef .undef) resultTy [v, w] = some r → r = M.literal (.bool (p.order.Holds x y))
  fcmp : ∀ {p : FloatPredicate} {o : Order} {ty resultTy : Ty} {v w r : V} {x y : Extended},
    p.order? = some o → M.number? v = some x → M.number? w = some y →
    M.compute (.fcmp p ty .undef .undef) resultTy [v, w] = some r → r = M.literal (.bool (o.Holds x y))
  always : ∀ {ty resultTy : Ty} {values : List V} {r : V},
    M.compute (.fcmp .always ty .undef .undef) resultTy values = some r → r = M.literal (.bool true)
  never : ∀ {ty resultTy : Ty} {values : List V} {r : V},
    M.compute (.fcmp .never ty .undef .undef) resultTy values = some r → r = M.literal (.bool false)
  icmp_swapped : ∀ (p : IntPredicate) (ty resultTy : Ty) (v w : V),
    M.compute (.icmp p.swapped ty .undef .undef) resultTy [w, v] =
      M.compute (.icmp p ty .undef .undef) resultTy [v, w]
  fcmp_swapped : ∀ (p : FloatPredicate) (ty resultTy : Ty) (v w : V),
    M.compute (.fcmp p.swapped ty .undef .undef) resultTy [w, v] =
      M.compute (.fcmp p ty .undef .undef) resultTy [v, w]

end Machine

/-! ## 2. Decided comparisons -/

/-- Intervals that decide a comparison are intervals of numbers. -/
theorem Order.hasNumber_of_decide {o : Order} {a b : Bound} {t : Bool} (h : (o.decide a b).value? = some t) :
    a.HasNumber ∧ b.HasNumber := by
  have hcert : ∀ always never : Bool, (Decision.ofCertainty always never).value? = some t →
      always = true ∨ never = true := by
    intro always never hv
    cases always <;> cases never <;> simp_all [Decision.ofCertainty, Decision.value?]
  have hlt : ∀ {a b : Bound}, Endpoint.lt a.hi b.lo = true → a.HasNumber ∧ b.HasNumber := fun h =>
    ⟨Or.inr (lt_true_iff.mp h).1, Or.inl (lt_true_iff.mp h).2.1⟩
  have hle : ∀ {a b : Bound}, Endpoint.le a.hi b.lo = true → a.HasNumber ∧ b.HasNumber := fun h =>
    ⟨Or.inr (le_true_iff.mp h).1, Or.inl (le_true_iff.mp h).2.1⟩
  have hapart : Order.apart a b = true → a.HasNumber ∧ b.HasNumber := fun h =>
    (Bool.or_eq_true _ _ ▸ h).elim hlt fun h => (hlt h).symm
  have hsame : Order.coincide a b = true → a.HasNumber ∧ b.HasNumber := by
    intro h
    unfold Order.coincide at h
    rw [Bool.and_eq_true, same_true_iff] at h
    exact ⟨Or.inl h.2.1, Or.inl h.2.2.1⟩
  cases o with
  | eq => exact (hcert _ _ h).elim hsame hapart
  | ne => exact (hcert _ _ h).elim hapart hsame
  | lt => exact (hcert _ _ h).elim hlt fun h => (hle h).symm
  | le => exact (hcert _ _ h).elim hle fun h => (hlt h).symm
  | gt => exact (hcert _ _ h).elim (fun h => (hlt h).symm) hle
  | ge => exact (hcert _ _ h).elim (fun h => (hle h).symm) hlt

namespace Machine

variable {V W : Type} {M : Machine V W} {args : List V} {env : InstId → Option V} {id : FuncId} {b : Bounds}

/-- The value of an operand lies in the interval that a comparison is decided with. -/
theorem Lawful.liesIn_operand (hM : M.Lawful) {op : Operand} {j : Bound} {v : V}
    (hkey : ∀ key j v, ValueKey.ofOperand? id op = some key → b.get? key = some j →
      M.eval args env op = some v → M.LiesIn v j)
    (hexact : ∀ c, op = .const c → c.IsExact) (hj : b.operand? id op = some j) (hnum : j.HasNumber)
    (hv : M.eval args env op = some v) : M.LiesIn v j := by
  cases op with
  | const c =>
    cases hj
    cases hv
    obtain ⟨x, hx, hholds⟩ := Constant.holds_number (hexact c rfl) hnum
    exact ⟨x, (hM.literal c).trans hx, hholds⟩
  | inst i => exact hkey _ j v rfl hj hv
  | arg i => exact hkey _ j v rfl hj hv
  | global g => exact hkey _ j v rfl hj hv
  | undef => cases hj

/-- A comparison that is decided has the outcome that was found. -/
theorem Lawful.outcome (hM : M.Lawful) {k : InstKind} {t : Bool} (hk : k.outcome? (b.operand? id) = some t)
    (hkey : ∀ op ∈ k.operands, ∀ key j v, ValueKey.ofOperand? id op = some key → b.get? key = some j →
      M.eval args env op = some v → M.LiesIn v j)
    (hexact : ∀ c, .const c ∈ k.operands → c.IsExact) {values : List V} {ty : Ty} {r : V}
    (hvalues : k.operands.mapM (M.eval args env) = some values) (hr : M.compute k.shape ty values = some r) :
    r = M.literal (.bool t) := by
  -- What two operands are when an order on their intervals is decided.
  have hpair : ∀ {lhs rhs : Operand} {o : Order} {i j : Bound}, k.operands = [lhs, rhs] →
      b.operand? id lhs = some i → b.operand? id rhs = some j → (o.decide i j).value? = some t →
      ∃ v w x y, values = [v, w] ∧ M.number? v = some x ∧ M.number? w = some y ∧ i.Holds x ∧ j.Holds y ∧
        t = decide (o.Holds x y) := by
    intro lhs rhs o i j hops hi hj ht
    rw [hops] at hvalues hkey hexact
    obtain ⟨v, w, rfl, hv, hw⟩ := mapM_two hvalues
    obtain ⟨hni, hnj⟩ := Order.hasNumber_of_decide ht
    obtain ⟨x, hx, hix⟩ := hM.liesIn_operand (hkey lhs (by simp)) (fun c hc => hexact c (by simp [hc])) hi hni hv
    obtain ⟨y, hy, hjy⟩ := hM.liesIn_operand (hkey rhs (by simp)) (fun c hc => hexact c (by simp [hc])) hj hnj hw
    refine ⟨v, w, x, y, rfl, hx, hy, hix, hjy, ?_⟩
    rw [Bool.eq_iff_iff, decide_eq_true_iff]
    exact (Interval.holds_iff_of_decide hix hjy ht).symm
  unfold InstKind.outcome? at hk
  split at hk
  · simp only [Option.bind_eq_bind, Option.bind_eq_some_iff] at hk
    obtain ⟨i, hi, j, hj, ht⟩ := hk
    unfold IntPredicate.decide at ht
    split_ifs at ht with hsign
    · cases ht
    · obtain ⟨v, w, x, y, rfl, hx, hy, hix, hjy, rfl⟩ := hpair rfl hi hj ht
      refine hM.icmp hx hy (fun hunsigned => ?_) hr
      rw [hunsigned, Bool.true_and, Bool.not_eq_true, Bool.not_eq_false', Bool.and_eq_true] at hsign
      exact ⟨Interval.nonneg_of_isNonneg hsign.1 hix, Interval.nonneg_of_isNonneg hsign.2 hjy⟩
  · cases hk
    exact hM.always hr
  · cases hk
    exact hM.never hr
  · rename_i p _ _ _ halways hnever
    simp only [Option.bind_eq_bind, Option.bind_eq_some_iff] at hk
    obtain ⟨i, hi, j, hj, ht⟩ := hk
    unfold FloatPredicate.decide at ht
    split at ht
    · exact absurd rfl halways
    · exact absurd rfl hnever
    · split at ht
      · rename_i o ho
        obtain ⟨v, w, x, y, rfl, hx, hy, hix, hjy, rfl⟩ := hpair rfl hi hj ht
        exact hM.fcmp ho hx hy hr
      · cases ht
  · cases hk

/-! ## 3. Single numbers -/

/-- A value that lies in an interval of one number is the literal of that number. -/
theorem Lawful.eq_literal (hM : M.Lawful) {v : V} {i : Bound} {ty : Ty} {c : Constant} (hv : M.LiesIn v i)
    (hs : i.isSingleton = true) (hc : Constant.forType? ty i.lo = some c) : v = M.literal c := by
  obtain ⟨x, hx, hholds⟩ := hv
  have hnum : c.number? = some x := by
    rw [Interval.eq_of_isSingleton hs hholds]
    exact (Constant.number?_of_forType? hholds.1.1 hc).1
  exact hM.unique hx ((hM.literal c).trans hnum)

/-- A branch on a literal leads where the literal says. -/
theorem Lawful.target?_literal (hM : M.Lawful) (c : Constant) (t e : BlockId) :
    M.target? args env (.condBr (.const c) t e) = some (if c.value == 0.0 then e else t) := by
  have hzero : (0 : Extended) = whole 0 := by simp [whole]
  have h : M.number? (M.literal c) = some 0 ↔ (c.value == 0.0) = true := by
    rw [hM.literal, hzero, Constant.number?_eq_zero_iff]
  simp only [Machine.target?, Machine.eval, Option.map_some, Option.some.injEq]
  by_cases hc : (c.value == 0.0) = true
  · rw [if_pos (h.mpr hc), if_pos hc]
  · rw [if_neg (fun h' => hc (h.mp h')), if_neg hc]

/-! ## 4. Exact numbers -/

/-- Two values that are numbers. -/
def numbers? : List (Option Extended) → Option (Extended × Extended)
  | [some x, some y] => some (x, y)
  | _ => none

/-- The machine that computes with exact numbers and knows comparisons, sums and calls. -/
def exactNumbers : Machine (Option Extended) Unit where
  number? := fun v => v
  literal := Constant.number?
  undefined := none
  global := fun _ => none
  compute k _ values :=
    match k with
    | .icmp p .. => (numbers? values).bind fun (x, y) =>
      if p.isUnsigned && !(decide (0 ≤ x) && decide (0 ≤ y)) then none
      else some (Constant.number? (.bool (p.order.Holds x y)))
    | .fcmp p .. =>
      if p = .always then some (Constant.number? (.bool true))
      else if p = .never then some (Constant.number? (.bool false))
      else (numbers? values).bind fun (x, y) => p.order?.map fun o => Constant.number? (.bool (o.Holds x y))
    | .binary .add .. => (numbers? values).map fun (x, y) => some (x + y)
    | _ => none
  act _ k _ _ world :=
    match k with
    | .call .. => some (none, world)
    | _ => none

theorem numbers?_swap (v w : Option Extended) : numbers? [w, v] = (numbers? [v, w]).map Prod.swap := by
  cases v <;> cases w <;> rfl

/-- A mirrored order is that of the mirrored numbers. -/
theorem holds_swapped (p : IntPredicate) (x y : Extended) :
    p.swapped.order.Holds y x ↔ p.order.Holds x y := by
  cases p with
  | eq => exact eq_comm
  | ne => exact ne_comm
  | _ => exact Iff.rfl

theorem order?_swapped (p : FloatPredicate) (x y : Extended) :
    p.swapped.order?.map (fun o => decide (o.Holds y x)) = p.order?.map fun o => decide (o.Holds x y) := by
  have heq : decide (Order.eq.Holds y x) = decide (Order.eq.Holds x y) := decide_eq_decide.mpr eq_comm
  have hne : decide (Order.ne.Holds y x) = decide (Order.ne.Holds x y) := decide_eq_decide.mpr ne_comm
  cases p with
  | oeq | ueq => exact congrArg some heq
  | one | une => exact congrArg some hne
  | _ => rfl

theorem lawful_exactNumbers : exactNumbers.Lawful where
  unique := by
    rintro v w x hv hw
    exact (show v = some x from hv).trans (show w = some x from hw).symm
  literal _ := rfl
  icmp := by
    rintro p ty resultTy v w r x y hx hy hsign hr
    obtain rfl : v = some x := hx
    obtain rfl : w = some y := hy
    simp only [exactNumbers, numbers?, Option.bind_some] at hr
    split_ifs at hr
    exact (Option.some.inj hr).symm
  fcmp := by
    rintro p o ty resultTy v w r x y ho hx hy hr
    obtain rfl : v = some x := hx
    obtain rfl : w = some y := hy
    have halways : p ≠ .always := by
      rintro rfl
      cases ho
    have hnever : p ≠ .never := by
      rintro rfl
      cases ho
    simp only [exactNumbers, numbers?, halways, hnever, if_false, Option.bind_some, ho, Option.map_some] at hr
    exact (Option.some.inj hr).symm
  always hr := (Option.some.inj hr).symm
  never hr := (Option.some.inj hr).symm
  icmp_swapped p ty resultTy v w := by
    have hunsigned : p.swapped.isUnsigned = p.isUnsigned := by cases p <;> rfl
    simp only [exactNumbers, numbers?_swap v w, Option.bind_map]
    congr 1
    funext ⟨x, y⟩
    simp only [Function.comp_apply, Prod.swap, hunsigned, Bool.and_comm, holds_swapped p x y]
  fcmp_swapped p ty resultTy v w := by
    have halways : p.swapped = .always ↔ p = .always := by cases p <;> simp [FloatPredicate.swapped]
    have hnever : p.swapped = .never ↔ p = .never := by cases p <;> simp [FloatPredicate.swapped]
    simp only [exactNumbers, numbers?_swap v w, Option.bind_map, halways, hnever]
    congr 2
    congr 1
    funext ⟨x, y⟩
    have h := congrArg (Option.map fun t => Constant.number? (.bool t)) (order?_swapped p x y)
    rw [Option.map_map, Option.map_map] at h
    exact h

end Machine

end RangedIR
