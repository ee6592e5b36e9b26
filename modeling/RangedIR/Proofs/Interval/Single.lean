/-
RangedIR.Proofs.Interval.Single — intervals of a single integer.

While both ends of the operands are one integer each, and no result is larger than `2^53`,
interval arithmetic is the arithmetic of the integers.
-/
import RangedIR.Interval.Word
import RangedIR.Proofs.Interval.Membership
import RangedIR.Proofs.Number.Integers

namespace RangedIR

open Number

/-! ## 1. Single integers -/

/-- Both ends of the interval are the integer. Of zero there are two ends. -/
structure Interval.Pins (i : Bound) (n : ℤ) : Prop where
  lo : Denotes i.lo n
  hi : Denotes i.hi n

namespace Interval

variable {a b j : Bound} {u v n : ℤ}

theorem pins_singleton {x : Float} (h : Denotes x n) : (singleton x : Bound).Pins n := ⟨h, h⟩

theorem lesser_cases (x y : Float) : Endpoint.lesser x y = x ∨ Endpoint.lesser x y = y := by
  unfold Endpoint.lesser
  split_ifs <;> simp

theorem greater_cases (x y : Float) : Endpoint.greater x y = x ∨ Endpoint.greater x y = y := by
  unfold Endpoint.greater
  split_ifs <;> simp

variable {x y : Float}

theorem denotes_lesser (hx : Denotes x n) (hy : Denotes y n) : Denotes (Endpoint.lesser x y) n := by
  rcases lesser_cases x y with h | h <;> rwa [h]

theorem denotes_greater (hx : Denotes x n) (hy : Denotes y n) : Denotes (Endpoint.greater x y) n := by
  rcases greater_cases x y with h | h <;> rwa [h]

theorem Pins.hull (ha : a.Pins n) (hb : b.Pins n) : (a.hull b).Pins n := by
  unfold Interval.hull
  exact ⟨denotes_lesser ha.lo hb.lo, denotes_greater ha.hi hb.hi⟩

theorem pins_span (hx : Denotes x n) (hy : Denotes y n) : (span x y : Bound).Pins n := by
  unfold span
  exact ⟨denotes_lesser hx hy, denotes_greater hx hy⟩

theorem Pins.isSingleton (h : a.Pins n) : a.isSingleton = true :=
  same_true_iff.mpr ⟨h.lo.isNumber, h.hi.isNumber, h.lo.exact.trans h.hi.exact.symm⟩

theorem isNonneg_iff_of_denotes (h : Denotes a.lo n) : a.isNonneg = true ↔ 0 ≤ n := by
  rw [isNonneg_iff, h.exact, and_iff_right h.isNumber]
  exact coe_le_coe.trans Int.cast_nonneg_iff

theorem Pins.isNonneg (h : a.Pins n) : a.isNonneg = true ↔ 0 ≤ n := isNonneg_iff_of_denotes h.lo

theorem Pins.holds (h : a.Pins n) : a.Holds (((n : ℚ) : WithTop ℚ) : Extended) :=
  ⟨h.lo.below_iff.mpr le_rfl, h.hi.above_iff.mpr le_rfl⟩

theorem eq_of_of? {lo hi : Float} (hj : of? lo hi = some j) : j = ⟨lo, hi⟩ := by
  unfold of? at hj
  split_ifs at hj
  cases hj
  rfl

theorem pins_of? {lo hi : Float} (hlo : Denotes lo n) (hhi : Denotes hi n) (hj : of? lo hi = some j) : j.Pins n := by
  cases eq_of_of? hj
  exact ⟨hlo, hhi⟩

/-- A number found exactly is the one that is nearest. -/
theorem denotes_of_nearest {x : Float} {q : ℚ} (h : IsNearest x q) (hq : q = n) (hn : |n| ≤ 2 ^ 53) : Denotes x n := by
  subst hq
  exact h.denotes (representable_int hn) (abs_int_lt_limit (by omega))

/-! ## 2. Arithmetic -/

theorem Pins.add (ha : a.Pins u) (hb : b.Pins v) (h : |u + v| ≤ 2 ^ 53) : (a.add b).Pins (u + v) :=
  ⟨denotes_of_nearest (ha.lo.add hb.lo) (by push_cast; rfl) h, denotes_of_nearest (ha.hi.add hb.hi) (by push_cast; rfl) h⟩

theorem Pins.sub (ha : a.Pins u) (hb : b.Pins v) (h : |u - v| ≤ 2 ^ 53) : (a.sub b).Pins (u - v) :=
  ⟨denotes_of_nearest (ha.lo.sub hb.hi) (by push_cast; rfl) h, denotes_of_nearest (ha.hi.sub hb.lo) (by push_cast; rfl) h⟩

/-- The ends of an interval spanned by corners are among them. -/
theorem ofCorners_cases {P : Float → Prop} {w x y z : Float} (hw : P w) (hx : P x) (hy : P y) (hz : P z)
    (hj : ofCorners w x y z = some j) : P j.lo ∧ P j.hi := by
  have hlesser : ∀ {x y}, P x → P y → P (Endpoint.lesser x y) := fun {x y} hx hy => by
    rcases lesser_cases x y with h | h <;> rwa [h]
  have hgreater : ∀ {x y}, P x → P y → P (Endpoint.greater x y) := fun {x y} hx hy => by
    rcases greater_cases x y with h | h <;> rwa [h]
  unfold ofCorners at hj
  split_ifs at hj
  cases hj
  exact ⟨hlesser (hlesser (hlesser hw hx) hy) hz, hgreater (hgreater (hgreater hw hx) hy) hz⟩

theorem Pins.mul (ha : a.Pins u) (hb : b.Pins v) (h : |u * v| ≤ 2 ^ 53) (hj : a.mul b = some j) : j.Pins (u * v) := by
  have hmul : ∀ {x y : Float}, Denotes x u → Denotes y v → Denotes (x * y) (u * v : ℤ) := fun hx hy =>
    denotes_of_nearest (hx.mul hy) (by push_cast; rfl) h
  obtain ⟨hlo, hhi⟩ := ofCorners_cases (P := fun x => Denotes x (u * v : ℤ)) (hmul ha.lo hb.lo) (hmul ha.lo hb.hi)
    (hmul ha.hi hb.lo) (hmul ha.hi hb.hi) hj
  exact ⟨hlo, hhi⟩

/-- A quotient is rounded, and its integer part is the quotient of the integers. -/
theorem Pins.div (ha : a.Pins u) (hb : b.Pins v) (hu : |u| ≤ 2 ^ 53) (hv : |v| ≤ 2 ^ 53) (h0 : v ≠ 0)
    (hj : a.div b = some j) : Denotes (trunc j.lo) (u.tdiv v : ℤ) ∧ Denotes (trunc j.hi) (u.tdiv v : ℤ) := by
  have hdiv : ∀ {x y : Float}, Denotes x u → Denotes y v → Denotes (trunc (x / y)) (u.tdiv v : ℤ) := fun hx hy =>
    hx.trunc_div hy hu hv h0
  unfold Interval.div at hj
  split_ifs at hj
  exact ofCorners_cases (P := fun x => Denotes (trunc x) (u.tdiv v : ℤ)) (hdiv ha.lo hb.lo) (hdiv ha.lo hb.hi)
    (hdiv ha.hi hb.lo) (hdiv ha.hi hb.hi) hj

theorem Pins.rem {integral : Bool} (ha : a.Pins u) (hb : b.Pins v) (hu : |u| ≤ 2 ^ 53) (h0 : v ≠ 0)
    (hj : a.rem integral b = some j) : j.Pins (u.tmod v) := by
  have hrem := ha.lo.rem hb.lo hu h0
  unfold Interval.rem at hj
  rw [ha.isSingleton, hb.isSingleton] at hj
  simp only [Bool.and_self, if_true] at hj
  split_ifs at hj
  exact pins_of? hrem hrem hj

/-! ## 3. Shifts and bitwise connectives -/

/-- A shift that is modelled is one by less than the width. -/
theorem of_shiftable {bits : Nat} (hbits : bits ≤ 64) {w : ℤ} (ha : Denotes a.lo u) (hlo : Denotes b.lo v)
    (hhi : Denotes b.hi w) (h : shiftable a b bits = true) : 0 ≤ u ∧ 0 ≤ v ∧ w < bits := by
  unfold shiftable at h
  rw [Bool.and_eq_true, Bool.and_eq_true, isNonneg_iff_of_denotes ha, isNonneg_iff_of_denotes hlo, Bool.not_eq_true',
    decide_eq_false_iff_not, le_iff] at h
  obtain ⟨⟨hu, hv⟩, hlt⟩ := h
  refine ⟨hu, hv, ?_⟩
  have hwidth : Denotes (ofInt bits) ((bits : ℤ) : ℚ) := denotes_ofInt (by rw [abs_of_nonneg (by positivity)]; omega)
  by_contra hge
  refine hlt ⟨hwidth.isNumber, hhi.isNumber, ?_⟩
  rw [hwidth.exact, hhi.exact, coe_le_coe]
  exact_mod_cast not_lt.mp hge

theorem denotes_exp2_floor {x : Float} (hx : Denotes x v) (h0 : 0 ≤ v) (h1 : v < 1024) :
    Denotes (Elementary.exp2 (floor x)) (2 ^ v.toNat) := by
  have hfloor : Denotes (floor x) v := by simpa using hx.floor
  refine Elementary.denotes_exp2 ?_ (by omega)
  rwa [show ((v.toNat : Nat) : ℚ) = (v : ℚ) by exact_mod_cast Int.toNat_of_nonneg h0]

theorem Pins.shl {bits : Nat} (hbits : bits ≤ 64) (ha : a.Pins u) (hb : b.Pins v) (h : |u * 2 ^ v.toNat| ≤ 2 ^ 53)
    (hj : a.shl b bits = some j) : j.Pins (u * 2 ^ v.toNat) := by
  unfold Interval.shl at hj
  dsimp only at hj
  split_ifs at hj with hshift
  rw [Bool.not_eq_true', Bool.not_eq_false] at hshift
  obtain ⟨-, hv, hlt⟩ := of_shiftable hbits ha.lo hb.lo hb.hi hshift
  exact pins_of? (denotes_of_nearest (ha.lo.mul (denotes_exp2_floor hb.lo hv (by omega))) (by push_cast; rfl) h)
    (denotes_of_nearest (ha.hi.mul (denotes_exp2_floor hb.hi hv (by omega))) (by push_cast; rfl) h) hj

/-- A right shift goes through a fraction, which binary64 holds as well. -/
theorem denotes_shr {k : Nat} (hx : Denotes x u) (hu0 : 0 ≤ u) (hu : |u| ≤ 2 ^ 53) (hk : k < 1024)
    (hy : Denotes y (2 ^ k)) : Denotes (floor (x / y)) (u / 2 ^ k : ℤ) := by
  have hdiv := hx.div hy (by positivity)
  have hrep : Representable ((u : ℚ) / 2 ^ k) := by
    rcases hu.lt_or_eq with hlt | heq
    · exact ⟨u, -k, hlt, by omega, by rw [zpow_neg, zpow_natCast]; rfl⟩
    · -- the greatest of them is itself a power of two
      rw [abs_of_nonneg hu0] at heq
      subst heq
      refine ⟨1, 53 - k, by norm_num, by omega, ?_⟩
      rw [zpow_sub₀ (by norm_num), zpow_natCast]
      norm_num
  have hlimit : |(u : ℚ) / 2 ^ k| < limit := by
    rw [abs_div, abs_of_pos (by positivity : (0 : ℚ) < 2 ^ k)]
    exact (div_le_self (abs_nonneg _) (one_le_pow₀ (by norm_num))).trans_lt (abs_int_lt_limit (by omega))
  have hfloor := (hdiv.denotes hrep hlimit).floor
  have hcast : (u : ℚ) / 2 ^ k = (u : ℚ) / ((2 ^ k : Nat) : ℚ) := by push_cast; rfl
  rw [hcast, Rat.floor_intCast_div_natCast] at hfloor
  exact_mod_cast hfloor

theorem Pins.shr {bits : Nat} (hbits : bits ≤ 64) (ha : a.Pins u) (hb : b.Pins v) (hu : |u| ≤ 2 ^ 53)
    (hj : a.shr b bits = some j) : j.Pins (u / 2 ^ v.toNat) := by
  unfold Interval.shr at hj
  split_ifs at hj with hshift
  rw [Bool.not_eq_true', Bool.not_eq_false] at hshift
  obtain ⟨hu0, hv, hlt⟩ := of_shiftable hbits ha.lo hb.lo hb.hi hshift
  exact pins_of? (denotes_shr ha.lo hu0 hu (by omega) (denotes_exp2_floor hb.hi hv (by omega)))
    (denotes_shr ha.hi hu0 hu (by omega) (denotes_exp2_floor hb.lo hv (by omega))) hj

theorem toUnsigned64_eq {x : Float} (hx : Denotes x u) (hu0 : 0 ≤ u) (hu : |u| ≤ 2 ^ 53) : toUnsigned64 x = u.toNat := by
  unfold toUnsigned64
  rw [hx.clampToInt, towardZero_intCast]
  rw [abs_le] at hu
  omega

theorem Pins.bitwise {f : Nat → Nat → Nat} {wide : Bound → Bound → Option Bound} (ha : a.Pins u) (hb : b.Pins v)
    (hu : |u| ≤ 2 ^ 53) (hv : |v| ≤ 2 ^ 53) (h : f u.toNat v.toNat ≤ 2 ^ 53) (hj : Interval.bitwise f wide a b = some j) :
    j.Pins (f u.toNat v.toNat) := by
  unfold Interval.bitwise at hj
  rw [ha.isSingleton, hb.isSingleton] at hj
  simp only [Bool.and_self, if_true] at hj
  split_ifs at hj with hnonneg
  rw [Bool.not_eq_true', Bool.not_eq_false, Bool.and_eq_true, ha.isNonneg, hb.isNonneg] at hnonneg
  cases hj
  rw [toUnsigned64_eq ha.lo hnonneg.1 hu, toUnsigned64_eq hb.lo hnonneg.2 hv]
  exact pins_singleton (denotes_ofInt (by rw [abs_of_nonneg (by positivity)]; exact_mod_cast h))

end Interval

end RangedIR
