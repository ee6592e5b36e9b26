/-
RangedIR.Proofs.Analysis.Transfer — results of instructions on words lie in their intervals.

Sums and differences of words, their comparisons and their unsigned reading, each
against the interval that the analysis computes from the intervals of the operands.
-/
import RangedIR.Analysis.Transfer
import RangedIR.Interval.Decision
import RangedIR.Proofs.Interval.Word

namespace RangedIR

open Number

/-! ## 1. Words -/

namespace Word

/-- An integer in the signed range of a width. -/
def InRange (bits : Nat) (n : ℤ) : Prop := -2 ^ (bits - 1) ≤ n ∧ n < 2 ^ (bits - 1)

instance (bits : Nat) (n : ℤ) : Decidable (InRange bits n) :=
  inferInstanceAs (Decidable (-2 ^ (bits - 1) ≤ n ∧ n < 2 ^ (bits - 1)))

theorem inRange_bmod {bits : Nat} (hb : 1 ≤ bits) (n : ℤ) : InRange bits (n.bmod (2 ^ bits)) := by
  have hpow : 2 ^ bits = 2 * 2 ^ (bits - 1) := (mul_pow_sub_one (by omega) 2).symm
  have hpos : 0 < 2 ^ bits := by positivity
  have h1 := Int.le_bmod (x := n) hpos
  have h2 := Int.bmod_lt (x := n) hpos
  rw [hpow] at h1 h2 ⊢
  push_cast at h1 h2 ⊢
  constructor <;> omega

/-- A word in range is its own remainder. -/
theorem InRange.bmod {bits : Nat} (hb : 1 ≤ bits) {n : ℤ} (h : InRange bits n) : n.bmod (2 ^ bits) = n :=
  Transfer.bmod_of_signed hb h.1 h.2

theorem InRange.magnitude {bits : Nat} (hb : bits ≤ 52) {n : ℤ} (h : InRange bits n) : |n| ≤ 2 ^ 51 := by
  have hpow : (2 : ℤ) ^ (bits - 1) ≤ 2 ^ 51 := pow_le_pow_right₀ (by norm_num) (by omega)
  obtain ⟨h1, h2⟩ := h
  rw [abs_le]
  constructor <;> omega

/-- A word that is not negative is its own unsigned reading. -/
theorem InRange.emod {bits : Nat} {n : ℤ} (h : InRange bits n) (h0 : 0 ≤ n) : n % 2 ^ bits = n := by
  have hpow : (2 : ℤ) ^ (bits - 1) ≤ 2 ^ bits := pow_le_pow_right₀ (by norm_num) (by omega)
  exact Int.emod_eq_of_lt h0 (h.2.trans_le hpow)

theorem inRange_emod {narrow wide : Nat} (h : narrow < wide) (n : ℤ) : InRange wide (n % 2 ^ narrow) := by
  have hpos : (0 : ℤ) < 2 ^ narrow := by positivity
  have hpow : (2 : ℤ) ^ narrow ≤ 2 ^ (wide - 1) := pow_le_pow_right₀ (by norm_num) (by omega)
  have h1 := Int.emod_nonneg n hpos.ne'
  have h2 := Int.emod_lt_of_pos n hpos
  constructor <;> omega

/-- Whether two integers are in an order. -/
def ordered (o : Order) (a b : ℤ) : Bool := decide (o.Holds (whole a) (whole b))

/-- The outcome of a comparison of words of a width. -/
def compare (p : IntPredicate) (bits : Nat) (a b : ℤ) : Bool :=
  if p.isUnsigned then ordered p.order (a % 2 ^ bits) (b % 2 ^ bits) else ordered p.order a b

end Word

open Word

/-! ## 2. Sums and differences -/

namespace Transfer

/-- The result of an operation on two operands before it is taken into its type. -/
def unwrapped? (op : BinaryOp) (ty : Ty) (lookup : Operand → Option Bound) (lhs rhs : Operand) : Option Bound :=
  let swap := isLiteral lhs && !isLiteral rhs && op.isCommutative
  match lookup (if swap then rhs else lhs), lookup (if swap then lhs else rhs) with
  | some a, some b => exact op ty.intBits? a b
  | _, _ => none

theorem holds_add_words {a b : Bound} {u v : ℤ} (hu : |u| ≤ 2 ^ 51) (hv : |v| ≤ 2 ^ 51) (ha : a.Holds (whole u))
    (hb : b.Holds (whole v)) : (a.add b).Holds (whole (u + v)) := by
  have hsum : |u + v| ≤ 2 ^ 53 := (abs_add_le u v).trans (by omega)
  exact ⟨ha.1.add_whole hb.1 hsum, ha.2.add_whole hb.2 hsum⟩

theorem holds_sub_words {a b : Bound} {u v : ℤ} (hu : |u| ≤ 2 ^ 51) (hv : |v| ≤ 2 ^ 51) (ha : a.Holds (whole u))
    (hb : b.Holds (whole v)) : (a.sub b).Holds (whole (u - v)) := by
  have hdiff : |u - v| ≤ 2 ^ 53 := (abs_sub u v).trans (by omega)
  have h := Interval.holds_sub ha hb (by exact_mod_cast representable_int hdiff)
    (by exact_mod_cast abs_int_lt_limit (hdiff.trans (by norm_num)))
  unfold whole
  exact_mod_cast h

/-- The exact sum or difference of two integers. -/
def sum (op : BinaryOp) (u v : ℤ) : ℤ := if op = .sub then u - v else u + v

variable {op : BinaryOp} {bits : Nat} {lookup : Operand → Option Bound} {l r : Operand} {u v : ℤ}

theorem holds_unwrapped (hop : op = .add ∨ op = .sub) (hu : |u| ≤ 2 ^ 51) (hv : |v| ≤ 2 ^ 51)
    (hl : ∀ i, lookup l = some i → i.Holds (whole u)) (hr : ∀ i, lookup r = some i → i.Holds (whole v)) {i : Bound}
    (hi : unwrapped? op (.int bits) lookup l r = some i) : i.Holds (whole (sum op u v)) := by
  unfold unwrapped? at hi
  rcases hop with rfl | rfl
  · -- A sum may take its operands in either order.
    simp only [BinaryOp.isCommutative, Bool.and_true] at hi
    split at hi
    · rename_i a b ha hb
      cases hi
      split_ifs at ha hb
      · have h := holds_add_words hv hu (hr a ha) (hl b hb)
        rwa [add_comm] at h
      · exact holds_add_words hu hv (hl a ha) (hr b hb)
    · cases hi
  · simp only [BinaryOp.isCommutative, Bool.and_false, Bool.false_eq_true, if_false] at hi
    split at hi
    · rename_i a b ha hb
      cases hi
      exact holds_sub_words hu hv (hl a ha) (hr b hb)
    · cases hi

theorem binary_value (hop : op = .add ∨ op = .sub) :
    (binary op (.int bits) lookup l r).value =
      (unwrapped? op (.int bits) lookup l r).bind fun i => (intoType op (.int bits) i).value := by
  unfold binary unwrapped?
  simp only
  generalize lookup (if isLiteral l && !isLiteral r && op.isCommutative then r else l) = first
  generalize lookup (if isLiteral l && !isLiteral r && op.isCommutative then l else r) = second
  cases first with
  | none => rfl
  | some a =>
    cases second with
    | none => rfl
    | some b => rcases hop with rfl | rfl <;> rfl

/-- The recorded interval of a sum or difference of words holds the word that results. -/
theorem holds_binary (hop : op = .add ∨ op = .sub) (h0 : 2 ≤ bits) (hb : bits ≤ 52) (hu : InRange bits u)
    (hv : InRange bits v) (hl : ∀ i, lookup l = some i → i.Holds (whole u))
    (hr : ∀ i, lookup r = some i → i.Holds (whole v))
    (hslips : (unwrapped? op (.int bits) lookup l r).any (slips · bits) = false) {j : Bound}
    (hj : (binary op (.int bits) lookup l r).value = some j) :
    j.Holds (whole ((sum op u v).bmod (2 ^ bits))) := by
  have hu' := hu.magnitude hb
  have hv' := hv.magnitude hb
  rw [binary_value hop] at hj
  obtain ⟨i, hi, hj⟩ := Option.bind_eq_some_iff.mp hj
  rw [hi, Option.any_some] at hslips
  have hsum : |sum op u v| ≤ 2 ^ 53 := by
    unfold sum
    split_ifs
    · exact (abs_sub u v).trans (by omega)
    · exact (abs_add_le u v).trans (by omega)
  exact holds_intoType h0 hb (holds_unwrapped hop hu' hv' hl hr hi) hsum hslips hj

end Transfer

/-! ## 3. Comparisons -/

namespace Decision

theorem holds_bound {d : Decision} {c : Bool} (h : ∀ t, d.value? = some t → c = t) :
    d.bound.Holds (whole (if c then 1 else 0)) := by
  have hone : whole 1 = (((1 : ℚ) : WithTop ℚ) : Extended) := by simp [whole]
  have hzero : whole 0 = (((0 : ℚ) : WithTop ℚ) : Extended) := by simp [whole]
  cases d with
  | alwaysTrue =>
    rw [h true rfl, if_pos rfl]
    exact (Interval.holds_singleton denotes_one).mpr hone
  | alwaysFalse =>
    rw [h false rfl, if_neg Bool.false_ne_true]
    exact (Interval.holds_singleton denotes_zero).mpr hzero
  | depends =>
    have h01 : whole 0 ≤ whole (if c then 1 else 0) ∧ whole (if c then 1 else 0) ≤ whole 1 := by
      rw [whole_le, whole_le]
      split_ifs <;> simp
    exact ⟨below_lesser.mpr (Or.inl (denotes_zero.below_iff.mpr (hzero ▸ h01.1))),
      above_greater.mpr (Or.inr (denotes_one.above_iff.mpr (hone ▸ h01.2)))⟩

end Decision

/-- The recorded interval of a comparison of words holds its outcome. -/
theorem IntPredicate.holds_decide (p : IntPredicate) {bits : Nat} {a b : Bound} {u v : ℤ} (hu : InRange bits u)
    (hv : InRange bits v) (ha : a.Holds (whole u)) (hb : b.Holds (whole v)) :
    (p.decide a b).bound.Holds (whole (if Word.compare p bits u v then 1 else 0)) := by
  refine Decision.holds_bound fun t ht => ?_
  unfold IntPredicate.decide at ht
  split_ifs at ht with hsign
  · cases ht
  · have horder : Word.compare p bits u v = Word.ordered p.order u v := by
      unfold Word.compare
      split_ifs with hunsigned
      · -- An unsigned comparison is decided for intervals that are not negative only.
        rw [hunsigned, Bool.true_and, Bool.not_eq_true, Bool.not_eq_false', Bool.and_eq_true] at hsign
        have h0 : (0 : Extended) = whole 0 := by simp [whole]
        have hu0 := Interval.nonneg_of_isNonneg hsign.1 ha
        have hv0 := Interval.nonneg_of_isNonneg hsign.2 hb
        rw [h0, whole_le] at hu0 hv0
        rw [hu.emod hu0, hv.emod hv0]
      · rfl
    rw [horder, Word.ordered, Bool.eq_iff_iff, decide_eq_true_iff]
    exact Interval.holds_iff_of_decide ha hb ht

end RangedIR
