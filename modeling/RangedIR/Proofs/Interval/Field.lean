/-
RangedIR.Proofs.Interval.Field — interval arithmetic over exact numbers.

The operations of intervals are the same text for every kind of ends. With the numbers of
an ordered field as ends nothing is rounded, and the arithmetic is exact: a result holds
what the operation makes of the numbers of its operands, and no smaller interval does.
-/
import Mathlib
import RangedIR.Interval.Basic

namespace RangedIR

open Endpoint

variable {K : Type} [Field K] [LinearOrder K] [FloorRing K]

/-! ## 1. Exact numbers as ends -/

/-- The integer next to a quotient on the side of zero. -/
def wholePart (q : K) : ℤ := if 0 ≤ q then ⌊q⌋ else ⌈q⌉

/-- Exact numbers as ends. -/
abbrev exactEndpoint : Endpoint K where
  zero := 0
  one := 1
  le a b := decide (a ≤ b)
  lt a b := decide (a < b)
  abs := abs
  rem x y := x - y * wholePart (x / y)

attribute [local instance] exactEndpoint

namespace Interval

variable {a b c : Interval K} {x y : K}

@[simp] theorem exact_contains : a.contains x = true ↔ a.lo ≤ x ∧ x ≤ a.hi := by
  simp [contains, le]

@[simp] theorem exact_lesser : lesser x y = min x y := by
  rw [min_comm]
  simp [lesser, isNumber, le, lt, min_def_lt]

@[simp] theorem exact_greater : greater x y = max x y := by
  simp [greater, isNumber, le, lt, max_def_lt]

@[simp] theorem exact_same : same x y = true ↔ x = y := by
  simp [same, le, ← le_antisymm_iff]

theorem contains_lo (ha : a.lo ≤ a.hi) : a.contains a.lo = true := by simp [ha]

theorem contains_hi (ha : a.lo ≤ a.hi) : a.contains a.hi = true := by simp [ha]

/-- The interval holds the results of an operation on two intervals, and both of its ends are
such results. -/
structure Tight (f : K → K → K) (a b c : Interval K) : Prop where
  holds : ∀ x y, a.contains x = true → b.contains y = true → c.contains (f x y) = true
  lo : ∃ x y, a.contains x = true ∧ b.contains y = true ∧ f x y = c.lo
  hi : ∃ x y, a.contains x = true ∧ b.contains y = true ∧ f x y = c.hi

/-! ## 2. Four corners -/

/-- The corners span the results if each operand alone keeps them between its two ends. -/
theorem tight_ofCorners {f : K → K → K} (ha : a.lo ≤ a.hi) (hb : b.lo ≤ b.hi)
    (hleft : ∀ x y, a.contains x = true → b.contains y = true → f x y ∈ Set.uIcc (f a.lo y) (f a.hi y))
    (hright : ∀ x y, b.contains y = true → f x y ∈ Set.uIcc (f x b.lo) (f x b.hi)) :
    ∃ c, ofCorners (f a.lo b.lo) (f a.lo b.hi) (f a.hi b.lo) (f a.hi b.hi) = some c ∧ Tight f a b c := by
  have hal := contains_lo ha
  have hah := contains_hi ha
  have hbl := contains_lo hb
  have hbh := contains_hi hb
  refine ⟨⟨min (min (min (f a.lo b.lo) (f a.lo b.hi)) (f a.hi b.lo)) (f a.hi b.hi),
    max (max (max (f a.lo b.lo) (f a.lo b.hi)) (f a.hi b.lo)) (f a.hi b.hi)⟩,
    by simp [ofCorners, isNumber, le], ?_, by grind, by grind⟩
  intro x y hx hy
  have hxy := hleft x y hx hy
  have hlo := hright a.lo y hy
  have hhi := hright a.hi y hy
  simp only [exact_contains, Set.mem_uIcc] at hxy hlo hhi ⊢
  grind

variable [IsStrictOrderedRing K]

/-- A multiple of a number between two others lies between their multiples. -/
theorem mul_mem_uIcc {l h : K} (hx : x ∈ Set.uIcc l h) (y : K) : x * y ∈ Set.uIcc (l * y) (h * y) := by
  rw [← Set.image_mul_const_uIcc]
  exact Set.mem_image_of_mem _ hx

theorem tight_mul (ha : a.lo ≤ a.hi) (hb : b.lo ≤ b.hi) : ∃ c, a.mul b = some c ∧ Tight (· * ·) a b c := by
  refine tight_ofCorners ha hb (fun x y hx _ => ?_) (fun x y hy => ?_)
  · exact mul_mem_uIcc (Set.mem_uIcc.mpr (.inl (exact_contains.mp hx))) y
  · simpa only [mul_comm x] using mul_mem_uIcc (Set.mem_uIcc.mpr (.inl (exact_contains.mp hy))) x

/-- One of the four products of the ends is at most a product of numbers between them, and one is
at least that. -/
theorem corners_mul {p q r s : K} (hx : x ∈ Set.uIcc p q) (hy : y ∈ Set.uIcc r s) :
    (p * r ≤ x * y ∨ p * s ≤ x * y ∨ q * r ≤ x * y ∨ q * s ≤ x * y) ∧
      (x * y ≤ p * r ∨ x * y ≤ p * s ∨ x * y ≤ q * r ∨ x * y ≤ q * s) := by
  have hxy := mul_mem_uIcc hx y
  have hp := mul_mem_uIcc hy p
  have hq := mul_mem_uIcc hy q
  simp only [mul_comm _ p, mul_comm _ q, Set.mem_uIcc] at hxy hp hq ⊢
  grind

omit [FloorRing K] in
/-- The inverses of numbers between two of one sign lie between their inverses. -/
theorem inv_mem_uIcc {r s : K} (hrs : 0 < r ∨ s < 0) (hr : r ≤ y) (hs : y ≤ s) : y⁻¹ ∈ Set.uIcc r⁻¹ s⁻¹ := by
  rw [Set.mem_uIcc]
  right
  rcases hrs with h | h
  · exact ⟨inv_anti₀ (h.trans_le hr) hs, inv_anti₀ h hr⟩
  · have hy := hs.trans_lt h
    exact ⟨(inv_le_inv_of_neg h hy).mpr hs, (inv_le_inv_of_neg hy (hr.trans_lt hy)).mpr hr⟩

theorem tight_div (ha : a.lo ≤ a.hi) (hb : b.lo ≤ b.hi) (hzero : b.contains 0 = false) :
    ∃ c, a.div b = some c ∧ Tight (· / ·) a b c := by
  have hdiv : a.div b = ofCorners (a.lo / b.lo) (a.lo / b.hi) (a.hi / b.lo) (a.hi / b.hi) := by
    unfold div
    rw [show b.contains zero = false from hzero]
    rfl
  rw [hdiv]
  rw [← Bool.not_eq_true, exact_contains] at hzero
  have hsign : 0 < b.lo ∨ b.hi < 0 := by grind
  refine tight_ofCorners ha hb (fun x y hx _ => ?_) (fun x y hy => ?_)
  · simpa only [div_eq_mul_inv] using mul_mem_uIcc (Set.mem_uIcc.mpr (.inl (exact_contains.mp hx))) y⁻¹
  · rw [exact_contains] at hy
    simpa only [div_eq_mul_inv, mul_comm x] using mul_mem_uIcc (inv_mem_uIcc hsign hy.1 hy.2) x

/-! ## 3. Remainders -/

/-- What is left of a number when a multiple of another one is taken away: it lies between
zero and the number, and is smaller than the divisor. -/
structure IsRemainder (x y r : K) : Prop where
  multiple : ∃ n : ℤ, x - r = n * y
  between : r ∈ Set.uIcc 0 x
  small : |r| < |y|

variable {r s : K}

/-- A number has one remainder: the difference of two would be a multiple of the divisor that is
smaller than the divisor. -/
theorem IsRemainder.unique (h : IsRemainder x y r) (h' : IsRemainder x y s) : r = s := by
  obtain ⟨⟨n, hn⟩, hr, hry⟩ := h
  obtain ⟨⟨m, hm⟩, hs, hsy⟩ := h'
  rw [Set.mem_uIcc] at hr hs
  have hdiff : r - s = ((m - n : ℤ) : K) * y := by
    push_cast
    linear_combination hm - hn
  have hlt : |((m - n : ℤ) : K)| * |y| < 1 * |y| := by
    rw [← abs_mul, ← hdiff, one_mul]
    grind
  have hzero : m - n = 0 := Int.abs_lt_one_iff.mp (by exact_mod_cast lt_of_mul_lt_mul_right hlt (abs_nonneg y))
  rw [← sub_eq_zero, hdiff, hzero, Int.cast_zero, zero_mul]

omit [IsStrictOrderedRing K] in
/-- A number that is smaller than the divisor is its own remainder. -/
theorem isRemainder_self (h : |x| < |y|) : IsRemainder x y x :=
  ⟨⟨0, by simp⟩, Set.right_mem_uIcc, h⟩

/-- The integer next to a quotient is less than one away, and on the side of zero. -/
theorem sub_wholePart (q : K) : q - wholePart q ∈ Set.uIcc 0 q ∧ |q - wholePart q| < 1 := by
  rw [Set.mem_uIcc]
  unfold wholePart
  split_ifs with h
  · have hnonneg : (0 : K) ≤ ⌊q⌋ := by exact_mod_cast Int.floor_nonneg.mpr h
    have hle := Int.floor_le q
    have hlt := Int.lt_floor_add_one q
    grind
  · have hnonpos : (⌈q⌉ : K) ≤ 0 := by exact_mod_cast Int.ceil_le.mpr (by simpa using (not_le.mp h).le)
    have hle := Int.le_ceil q
    have hlt := Int.ceil_lt_add_one q
    grind

theorem isRemainder_rem (hy : y ≠ 0) : IsRemainder x y (Endpoint.rem x y) := by
  have hx : x / y * y = x := div_mul_cancel₀ x hy
  have hrem : Endpoint.rem x y = (x / y - wholePart (x / y)) * y := by
    rw [sub_mul, hx, mul_comm _ y]
    rfl
  obtain ⟨hbetween, hlt⟩ := sub_wholePart (x / y)
  rw [hrem]
  refine ⟨⟨wholePart (x / y), by rw [sub_mul, hx]; ring⟩, ?_, ?_⟩
  · simpa [hx] using mul_mem_uIcc hbetween y
  · rw [abs_mul]
    exact mul_lt_of_lt_one_left (abs_pos.mpr hy) hlt

theorem abs_le_magnitude (hx : a.contains x = true) : |x| ≤ a.magnitude := by
  rw [exact_contains] at hx
  simp only [magnitude, exact_greater]
  exact abs_le_max_abs_abs hx.1 hx.2

/-- Every number of an interval without zero is at least as large as its smallest end. -/
theorem least_le_abs (hzero : ¬ b.contains 0 = true) (hy : b.contains y = true) : min |b.lo| |b.hi| ≤ |y| := by
  rw [exact_contains] at hzero hy
  grind

/-- A remainder lies in the interval that is computed for it. -/
theorem contains_rem (hc : a.rem false b = some c) (hx : a.contains x = true) (hy : b.contains y = true)
    (hr : IsRemainder x y r) : c.contains r = true := by
  have hxm := abs_le_magnitude hx
  have hym := abs_le_magnitude hy
  obtain ⟨-, hbetween, hsmall⟩ := id hr
  have hy0 : y ≠ 0 := abs_pos.mp ((abs_nonneg r).trans_lt hsmall)
  simp only [rem, of?, isSingleton, Endpoint.isNumber, Endpoint.le, Endpoint.lt, Endpoint.zero, Endpoint.abs,
    exact_greater, exact_lesser, Bool.and_eq_true, exact_same, decide_eq_true_eq, Bool.false_eq_true, if_false] at hc
  by_cases hsingle : a.lo = a.hi ∧ b.lo = b.hi
  · have hrem : r = Endpoint.rem a.lo b.lo := by
      rw [exact_contains] at hx hy
      obtain rfl : x = a.lo := by grind
      obtain rfl : y = b.lo := by grind
      exact hr.unique (isRemainder_rem hy0)
    simp only [exact_contains]
    grind
  rw [if_neg hsingle] at hc
  by_cases hpass : a.magnitude < if b.contains 0 = true then 0 else min |b.lo| |b.hi|
  · have hrem : r = x := by
      refine hr.unique (isRemainder_self (hxm.trans_lt (hpass.trans_le ?_)))
      split_ifs with hzero
      · exact abs_nonneg y
      · exact least_le_abs hzero hy
    grind
  · rw [if_neg hpass] at hc
    rw [exact_contains] at hx ⊢
    rw [Set.mem_uIcc] at hbetween
    have hr := abs_lt.mp (hsmall.trans_le hym)
    grind

/-! ## 4. All operations -/

/-- **Exact arithmetic of intervals.** A sum, a difference, a product and a quotient away from zero
hold what the operation makes of the numbers of the operands, and both ends are such results. The
negation has the negated numbers and no others, the hull lies in every interval that holds both
operands, and what is computed for remainders holds the remainder of each number of the first
operand by each of the second but zero. -/
theorem exact_arithmetic (ha : a.lo ≤ a.hi) (hb : b.lo ≤ b.hi) :
    Tight (· + ·) a b (a.add b) ∧ Tight (· - ·) a b (a.sub b) ∧
      (∃ c, a.mul b = some c ∧ Tight (· * ·) a b c) ∧
      (b.contains 0 = false → ∃ c, a.div b = some c ∧ Tight (· / ·) a b c) ∧
      (∀ x, a.neg.contains x = true ↔ ∃ y, a.contains y = true ∧ -y = x) ∧
      (∀ c : Interval K, (∀ x, (a.hull b).contains x = true → c.contains x = true) ↔
        ∀ x, a.contains x = true ∨ b.contains x = true → c.contains x = true) ∧
      ∀ c, a.rem false b = some c → ∀ x y, a.contains x = true → b.contains y = true → y ≠ 0 →
        IsRemainder x y (Endpoint.rem x y) ∧ ∀ r, IsRemainder x y r → c.contains r = true := by
  have hal := contains_lo ha
  have hah := contains_hi ha
  have hbl := contains_lo hb
  have hbh := contains_hi hb
  refine ⟨⟨?_, ⟨_, _, hal, hbl, rfl⟩, ⟨_, _, hah, hbh, rfl⟩⟩, ⟨?_, ⟨_, _, hal, hbh, rfl⟩, ⟨_, _, hah, hbl, rfl⟩⟩,
    tight_mul ha hb, tight_div ha hb, ?_, ?_, ?_⟩
  · intro x y hx hy
    rw [exact_contains] at *
    exact ⟨add_le_add hx.1 hy.1, add_le_add hx.2 hy.2⟩
  · intro x y hx hy
    rw [exact_contains] at *
    exact ⟨sub_le_sub hx.1 hy.2, sub_le_sub hx.2 hy.1⟩
  · intro x
    simp only [exact_contains, neg]
    constructor
    · intro h
      exact ⟨-x, ⟨le_neg.mp h.2, neg_le.mp h.1⟩, neg_neg x⟩
    · rintro ⟨y, h, rfl⟩
      exact ⟨neg_le_neg h.2, neg_le_neg h.1⟩
  · intro c
    simp only [exact_contains, hull, exact_lesser, exact_greater]
    constructor
    · grind
    · intro h x hx
      have hlo := h (min a.lo b.lo) (by grind)
      have hhi := h (max a.hi b.hi) (by grind)
      grind
  · intro c hc x y hx hy hy0
    exact ⟨isRemainder_rem hy0, fun r hr => contains_rem hc hx hy hr⟩

/-- Operands on both sides of zero. -/
theorem exact_arithmetic_mixed :
    (-2 : ℚ) ≤ 3 ∧ (-4 : ℚ) ≤ 5 ∧ ∃ c, mul (⟨-2, 3⟩ : Interval ℚ) ⟨-4, 5⟩ = some c ∧ Tight (· * ·) ⟨-2, 3⟩ ⟨-4, 5⟩ c := by
  have ha : (-2 : ℚ) ≤ 3 := by norm_num
  have hb : (-4 : ℚ) ≤ 5 := by norm_num
  exact ⟨ha, hb, (exact_arithmetic (a := ⟨-2, 3⟩) (b := ⟨-4, 5⟩) ha hb).2.2.1⟩

end Interval

end RangedIR
