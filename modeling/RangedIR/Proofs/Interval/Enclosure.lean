/-
RangedIR.Proofs.Interval.Enclosure — intervals between integers.

An interval whose ends are integers encloses the integers between them. Arithmetic on such
intervals encloses the results of the integers, as long as binary64 counts all that is
computed on the way: operands up to `2^25` have results up to `2^52`.
-/
import RangedIR.Proofs.Interval.Field
import RangedIR.Proofs.Interval.Single
import RangedIR.Proofs.Interval.Word

namespace RangedIR

open Number Endpoint

/-! ## 1. Integers between two ends -/

namespace Number

variable {x y : Float} {m n : ℤ}

theorem Denotes.endpoint_le (hx : Denotes x m) (hy : Denotes y n) : le x y = true ↔ m ≤ n := by
  rw [le_true_iff, hx.exact, hy.exact, coe_le_coe, Int.cast_le]
  exact ⟨fun h => h.2.2, fun h => ⟨hx.isNumber, hy.isNumber, h⟩⟩

theorem Denotes.endpoint_lt (hx : Denotes x m) (hy : Denotes y n) : lt x y = true ↔ m < n := by
  rw [lt_true_iff, hx.exact, hy.exact, ← not_le, coe_le_coe, Int.cast_le, not_le]
  exact ⟨fun h => h.2.2, fun h => ⟨hx.isNumber, hy.isNumber, h⟩⟩

theorem Denotes.lesser (hx : Denotes x m) (hy : Denotes y n) : Denotes (lesser x y) (min m n : ℤ) := by
  rw [lesser_of_isNumber hx.isNumber hy.isNumber]
  split_ifs with h
  · rw [hy.endpoint_lt hx] at h
    rwa [min_eq_right h.le]
  · rw [hy.endpoint_lt hx, not_lt] at h
    rwa [min_eq_left h]

theorem Denotes.greater (hx : Denotes x m) (hy : Denotes y n) : Denotes (greater x y) (max m n : ℤ) := by
  rw [greater_of_isNumber hx.isNumber hy.isNumber]
  split_ifs with h
  · rw [hx.endpoint_lt hy] at h
    rwa [max_eq_right h.le]
  · rw [hx.endpoint_lt hy, not_lt] at h
    rwa [max_eq_left h]

theorem denotes_zero_int : Denotes (zero : Float) (0 : ℤ) := by
  rw [Int.cast_zero]
  exact denotes_zero

theorem denotes_one_int : Denotes (one : Float) (1 : ℤ) := by
  rw [Int.cast_one]
  exact denotes_one

end Number

namespace Interval

/-- The ends are integers that are at most a size away from zero, and an integer lies
between them. -/
structure Encloses (i : Bound) (size n : ℤ) : Prop where
  lo : ∃ m : ℤ, -size ≤ m ∧ m ≤ n ∧ Denotes i.lo m
  hi : ∃ m : ℤ, n ≤ m ∧ m ≤ size ∧ Denotes i.hi m

variable {a b j : Bound} {size u v n : ℤ}

theorem Encloses.holds (h : a.Encloses size n) : a.Holds (whole n) := by
  obtain ⟨⟨p, -, hp, hlo⟩, q, hq, -, hhi⟩ := h
  exact ⟨hlo.below_iff.mpr (whole_le.mpr hp), hhi.above_iff.mpr (whole_le.mpr hq)⟩

theorem encloses_of_holds {p q : ℤ} (hp : -size ≤ p) (hq : q ≤ size) (hlo : Denotes a.lo p) (hhi : Denotes a.hi q)
    (h : a.Holds (whole n)) : a.Encloses size n :=
  ⟨⟨p, hp, whole_le.mp (hlo.below_iff.mp h.1), hlo⟩, q, whole_le.mp (hhi.above_iff.mp h.2), hq, hhi⟩

theorem Encloses.magnitude (h : a.Encloses size n) : |n| ≤ size := by
  obtain ⟨⟨p, hp, hpn, -⟩, q, hnq, hq, -⟩ := h
  exact abs_le.mpr ⟨hp.trans hpn, hnq.trans hq⟩

theorem Encloses.ends (h : a.Encloses size n) :
    ∃ p q : ℤ, |p| ≤ size ∧ |q| ≤ size ∧ p ≤ n ∧ n ≤ q ∧ Denotes a.lo p ∧ Denotes a.hi q := by
  obtain ⟨⟨p, hp, hpn, hlo⟩, q, hnq, hq, hhi⟩ := h
  exact ⟨p, q, abs_le.mpr ⟨hp, by omega⟩, abs_le.mpr ⟨by omega, hq⟩, hpn, hnq, hlo, hhi⟩

/-- An interval of one number encloses only that. -/
theorem Encloses.pins (h : a.Encloses size n) (hsingle : a.isSingleton = true) : a.Pins n := by
  obtain ⟨⟨p, -, hp, hlo⟩, q, hq, -, hhi⟩ := h
  unfold isSingleton same at hsingle
  rw [Bool.and_eq_true, hlo.endpoint_le hhi, hhi.endpoint_le hlo] at hsingle
  obtain rfl : p = n := by omega
  obtain rfl : q = p := by omega
  exact ⟨hlo, hhi⟩

theorem Pins.encloses (h : a.Pins n) (hn : |n| ≤ size) : a.Encloses size n := by
  rw [abs_le] at hn
  exact ⟨⟨n, hn.1, le_rfl, h.lo⟩, n, le_rfl, hn.2, h.hi⟩

/-! ## 2. Corners, remainders and envelopes -/

section Corners

variable {p q r s x y : ℚ}

theorem holds_ofCorners {w x y z : Float} {e : Extended} (hlo : Below w e ∨ Below x e ∨ Below y e ∨ Below z e)
    (hhi : Above w e ∨ Above x e ∨ Above y e ∨ Above z e) (hj : ofCorners w x y z = some j) : j.Holds e := by
  unfold ofCorners at hj
  split_ifs at hj
  cases hj
  exact ⟨by simpa only [below_lesser, or_assoc] using hlo, by simpa only [above_greater, or_assoc] using hhi⟩

/-- The ends spanned by four rounded products are two of them, on both sides of a rounded
product of numbers between the factors. -/
theorem ends_ofCorners {P : ℚ → Prop} {c d e f : Float} (hx : x ∈ Set.uIcc p q) (hy : y ∈ Set.uIcc r s)
    (hc : Denotes c (rounded (p * r)) ∧ P (rounded (p * r))) (hd : Denotes d (rounded (p * s)) ∧ P (rounded (p * s)))
    (he : Denotes e (rounded (q * r)) ∧ P (rounded (q * r))) (hf : Denotes f (rounded (q * s)) ∧ P (rounded (q * s)))
    (hj : ofCorners c d e f = some j) : ∃ m n, P m ∧ P n ∧ m ≤ rounded (x * y) ∧ rounded (x * y) ≤ n ∧
      Denotes j.lo m ∧ Denotes j.hi n := by
  obtain ⟨⟨m, hlo, hm⟩, n, hhi, hn⟩ :=
    ofCorners_cases (P := fun x => ∃ m, Denotes x m ∧ P m) ⟨_, hc⟩ ⟨_, hd⟩ ⟨_, he⟩ ⟨_, hf⟩ hj
  have hholds : j.Holds ((rounded (x * y) : WithTop ℚ) : Extended) := by
    refine holds_ofCorners ?_ ?_ hj
    · simp only [hc.1.below_iff, hd.1.below_iff, he.1.below_iff, hf.1.below_iff, coe_le_coe]
      exact (corners_mul hx hy).1.imp rounded_mono (.imp rounded_mono (.imp rounded_mono rounded_mono))
    · simp only [hc.1.above_iff, hd.1.above_iff, he.1.above_iff, hf.1.above_iff, coe_le_coe]
      exact (corners_mul hx hy).2.imp rounded_mono (.imp rounded_mono (.imp rounded_mono rounded_mono))
  exact ⟨m, n, hm, hn, coe_le_coe.mp (hlo.below_iff.mp hholds.1), coe_le_coe.mp (hhi.above_iff.mp hholds.2), hlo, hhi⟩

end Corners

theorem cast_mem_uIcc {p q : ℤ} (h1 : p ≤ n) (h2 : n ≤ q) : (n : ℚ) ∈ Set.uIcc (p : ℚ) q :=
  Set.Icc_subset_uIcc ⟨Int.cast_le.mpr h1, Int.cast_le.mpr h2⟩

theorem contains_zero_iff {p q : ℤ} (hlo : Denotes a.lo p) (hhi : Denotes a.hi q) :
    a.contains zero = true ↔ p ≤ 0 ∧ 0 ≤ q := by
  unfold contains
  rw [Bool.and_eq_true, hlo.endpoint_le denotes_zero_int, denotes_zero_int.endpoint_le hhi]

theorem denotes_magnitude {p q : ℤ} (hlo : Denotes a.lo p) (hhi : Denotes a.hi q) :
    Denotes a.magnitude (max |p| |q| : ℤ) := by
  have hlo' := hlo.abs
  have hhi' := hhi.abs
  rw [← Int.cast_abs] at hlo' hhi'
  exact hlo'.greater hhi'

/-- A remainder lies between zero and the dividend, and is smaller than the divisor. -/
theorem tmod_between (h0 : v ≠ 0) : min u 0 ≤ u.tmod v ∧ u.tmod v ≤ max u 0 ∧ |u.tmod v| ≤ |v| - 1 := by
  have hlt : (u.tmod v).natAbs < v.natAbs := by
    rw [Int.natAbs_tmod]
    exact Nat.mod_lt _ (Int.natAbs_pos.mpr h0)
  have hle : (u.tmod v).natAbs ≤ u.natAbs := by
    rw [Int.natAbs_tmod]
    exact Nat.mod_le _ _
  rw [Int.abs_eq_natAbs, Int.abs_eq_natAbs]
  rcases le_total 0 u with hu | hu
  · have := Int.tmod_nonneg v hu
    omega
  · have := Int.tmod_nonneg v (neg_nonneg.mpr hu)
    rw [Int.neg_tmod] at this
    omega

/-- A dividend that is smaller than the divisor is left as it is. -/
theorem tmod_eq_of_abs_lt (h : |u| < |v|) : u.tmod v = u := by
  rw [Int.abs_eq_natAbs, Int.abs_eq_natAbs] at h
  have hsame : (u.tmod v).natAbs = u.natAbs := by
    rw [Int.natAbs_tmod, Nat.mod_eq_of_lt (by exact_mod_cast h)]
  have := tmod_between (u := u) (v := v) (by omega)
  omega

/-- The least magnitude of a divisor. A divisor that may be zero is at least one where it is not. -/
def leastDivisor (b : Bound) : Float :=
  if b.contains zero then one else lesser (abs b.lo) (abs b.hi)

theorem denotes_leastDivisor {r s : ℤ} (h0 : v ≠ 0) (hrv : r ≤ v) (hvs : v ≤ s) (hlo : Denotes b.lo r)
    (hhi : Denotes b.hi s) : ∃ k : ℤ, k ≤ |v| ∧ Denotes (leastDivisor b) k := by
  unfold leastDivisor
  split_ifs with hzero
  · exact ⟨1, Int.one_le_abs h0, denotes_one_int⟩
  · rw [contains_zero_iff hlo hhi] at hzero
    have hlo' := hlo.abs
    have hhi' := hhi.abs
    rw [← Int.cast_abs] at hlo' hhi'
    refine ⟨min |r| |s|, ?_, hlo'.lesser hhi'⟩
    rw [Int.abs_eq_natAbs, Int.abs_eq_natAbs, Int.abs_eq_natAbs]
    omega

/-- The three ways in which a remainder of integers is found. -/
theorem rem_cases (hj : a.rem true b = some j) :
    (a.isSingleton = true ∧ b.isSingleton = true) ∨
    (lt a.magnitude (leastDivisor b) = true ∧ j = a) ∨
    j = ⟨if lt a.lo zero then greater a.lo (-(b.magnitude - one)) else zero,
      if lt zero a.hi then lesser a.hi (b.magnitude - one) else zero⟩ := by
  unfold Interval.rem at hj
  rw [← Bool.and_eq_true]
  split at hj
  · cases hj
  · split at hj
    · exact .inl ‹_›
    · change (if lt a.magnitude (leastDivisor b) = true then some a else of? _ _) = some j at hj
      by_cases hless : lt a.magnitude (leastDivisor b) = true
      · rw [if_pos hless] at hj
        exact .inr (.inl ⟨hless, (Option.some.inj hj).symm⟩)
      · rw [if_neg hless] at hj
        exact .inr (.inr (eq_of_of? hj))

theorem ediv_le_ediv_left {m c d : ℤ} (hm : 0 ≤ m) (hc : 0 < c) (h : c ≤ d) : m / d ≤ m / c := by
  rw [Int.le_ediv_iff_mul_le hc]
  calc m / d * c ≤ m / d * d := mul_le_mul_of_nonneg_left h (Int.ediv_nonneg hm (by omega))
    _ ≤ m := Int.ediv_mul_le m (by omega)

/-- No bit of an integer is above the envelope of one that is at least as large. -/
theorem denotes_envelope {x : Float} {k : ℤ} (hx : Denotes x k) (h0 : 0 ≤ k) (hk : k ≤ 2 ^ 25) :
    ∃ e ≤ 26, k < 2 ^ e ∧ Denotes (envelope x) (2 ^ e - 1 : ℤ) := by
  unfold envelope
  rw [toUnsigned64_eq hx h0 (abs_le.mpr (by omega))]
  dsimp only
  split_ifs with hzero
  · refine ⟨0, by omega, by omega, ?_⟩
    rw [pow_zero, sub_self]
    exact denotes_zero_int
  · have hlog : k.toNat.log2 < 26 := (Nat.log2_lt hzero).mpr (by omega)
    have hlt : k.toNat < 2 ^ (k.toNat.log2 + 1) := Nat.lt_log2_self
    have hpow : (2 : ℤ) ^ (k.toNat.log2 + 1) ≤ 2 ^ 26 := pow_le_pow_right₀ (by norm_num) (by omega)
    have hpos : (0 : ℤ) < 2 ^ (k.toNat.log2 + 1) := by positivity
    refine ⟨k.toNat.log2 + 1, hlog, ?_, denotes_ofInt (abs_le.mpr (by omega))⟩
    rw [← Int.toNat_of_nonneg h0]
    exact_mod_cast hlt

/-! ## 3. Operations -/

section Operations

variable (ha : a.Encloses (2 ^ 25) u) (hb : b.Encloses (2 ^ 25) v)

include ha hb

theorem Encloses.add : (a.add b).Encloses (2 ^ 52) (u + v) := by
  obtain ⟨⟨p, _, _, hlo⟩, q, _, _, hhi⟩ := ha
  obtain ⟨⟨r, _, _, hlo'⟩, s, _, _, hhi'⟩ := hb
  refine ⟨⟨p + r, by omega, by omega, ?_⟩, q + s, by omega, by omega, ?_⟩
  · exact denotes_of_nearest (hlo.add hlo') (by push_cast; rfl) (by rw [abs_le]; omega)
  · exact denotes_of_nearest (hhi.add hhi') (by push_cast; rfl) (by rw [abs_le]; omega)

theorem Encloses.sub : (a.sub b).Encloses (2 ^ 52) (u - v) := by
  obtain ⟨⟨p, _, _, hlo⟩, q, _, _, hhi⟩ := ha
  obtain ⟨⟨r, _, _, hlo'⟩, s, _, _, hhi'⟩ := hb
  refine ⟨⟨p - s, by omega, by omega, ?_⟩, q - r, by omega, by omega, ?_⟩
  · exact denotes_of_nearest (hlo.sub hhi') (by push_cast; rfl) (by rw [abs_le]; omega)
  · exact denotes_of_nearest (hhi.sub hlo') (by push_cast; rfl) (by rw [abs_le]; omega)

theorem Encloses.mul (hj : a.mul b = some j) : j.Encloses (2 ^ 52) (u * v) := by
  have hsmall : ∀ {m n : ℤ}, |m| ≤ 2 ^ 25 → |n| ≤ 2 ^ 25 → |m * n| ≤ 2 ^ 52 := fun hm hn => by
    rw [abs_mul]
    exact (mul_le_mul hm hn (abs_nonneg _) (by norm_num)).trans (by norm_num)
  have hround : ∀ {m n : ℤ}, |m| ≤ 2 ^ 25 → |n| ≤ 2 ^ 25 → rounded ((m : ℚ) * n) = (m * n : ℤ) := fun hm hn => by
    rw [← rounded_int ((hsmall hm hn).trans (by norm_num)), Int.cast_mul]
  have hmul : ∀ {x y : Float} {m n : ℤ}, Denotes x m → Denotes y n → |m| ≤ 2 ^ 25 → |n| ≤ 2 ^ 25 →
      Denotes (x * y) (rounded ((m : ℚ) * n)) ∧ ∃ k : ℤ, |k| ≤ 2 ^ 52 ∧ rounded ((m : ℚ) * n) = k :=
    fun {x y m n} hx hy hm hn => by
      rw [hround hm hn]
      exact ⟨denotes_of_nearest (hx.mul hy) (Int.cast_mul m n).symm ((hsmall hm hn).trans (by norm_num)), _,
        hsmall hm hn, rfl⟩
  have hproduct := hround ha.magnitude hb.magnitude
  obtain ⟨p, q, hp, hq, hpu, huq, hlo, hhi⟩ := ha.ends
  obtain ⟨r, s, hr, hs, hrv, hvs, hlo', hhi'⟩ := hb.ends
  obtain ⟨_, _, ⟨m, hm, rfl⟩, ⟨n, hn, rfl⟩, hle, hge, hjlo, hjhi⟩ := ends_ofCorners
    (P := fun t => ∃ k : ℤ, |k| ≤ 2 ^ 52 ∧ t = k) (cast_mem_uIcc hpu huq) (cast_mem_uIcc hrv hvs)
    (hmul hlo hlo' hp hr) (hmul hlo hhi' hp hs) (hmul hhi hlo' hq hr) (hmul hhi hhi' hq hs) hj
  rw [hproduct, Int.cast_le] at hle hge
  exact ⟨⟨m, (abs_le.mp hm).1, hle, hjlo⟩, n, hge, (abs_le.mp hn).2, hjhi⟩

/-- The quotients of the ends are rounded. Their integer parts are not moved by that. -/
theorem Encloses.div (hj : a.div b = some j) :
    (span (trunc j.lo) (trunc j.hi) : Bound).Encloses (2 ^ 52) (u.tdiv v) := by
  have hpart : ∀ {m n : ℤ}, |m| ≤ 2 ^ 25 → |n| ≤ 2 ^ 25 → n ≠ 0 → towardZero (rounded (m * (n : ℚ)⁻¹)) = m.tdiv n :=
    fun hm hn h0 => by
      rw [← div_eq_mul_inv]
      exact towardZero_rounded_div (hm.trans (by norm_num)) (hn.trans (by norm_num)) h0
  have hdiv : ∀ {x y : Float} {m n : ℤ}, Denotes x m → Denotes y n → |m| ≤ 2 ^ 25 → |n| ≤ 2 ^ 25 → n ≠ 0 →
      Denotes (x / y) (rounded (m * (n : ℚ)⁻¹)) ∧ |towardZero (rounded (m * (n : ℚ)⁻¹))| ≤ 2 ^ 52 :=
    fun {x y m n} hx hy hm hn h0 => by
      have hle := Int.natAbs_tdiv_le_natAbs m n
      rw [hpart hm hn h0, ← div_eq_mul_inv]
      refine ⟨hx.div_int hy (hm.trans (by norm_num)) h0, ?_⟩
      rw [Int.abs_eq_natAbs] at hm ⊢
      omega
  have hquotient := hpart ha.magnitude hb.magnitude
  obtain ⟨p, q, hp, hq, hpu, huq, hlo, hhi⟩ := ha.ends
  obtain ⟨r, s, hr, hs, hrv, hvs, hlo', hhi'⟩ := hb.ends
  unfold Interval.div at hj
  split_ifs at hj with hzero
  rw [contains_zero_iff hlo' hhi'] at hzero
  have hsign : 0 < r ∨ s < 0 := by omega
  have hr0 : r ≠ 0 := by omega
  have hs0 : s ≠ 0 := by omega
  have hinv : (v : ℚ)⁻¹ ∈ Set.uIcc (r : ℚ)⁻¹ (s : ℚ)⁻¹ :=
    inv_mem_uIcc (by exact_mod_cast hsign) (Int.cast_le.mpr hrv) (Int.cast_le.mpr hvs)
  obtain ⟨m, n, hm, hn, hle, hge, hjlo, hjhi⟩ := ends_ofCorners (P := fun t => |towardZero t| ≤ 2 ^ 52)
    (cast_mem_uIcc hpu huq) hinv (hdiv hlo hlo' hp hr hr0) (hdiv hlo hhi' hp hs hs0) (hdiv hhi hlo' hq hr hr0)
    (hdiv hhi hhi' hq hs hs0) hj
  have hlow := towardZero_mono hle
  have hhigh := towardZero_mono hge
  rw [hquotient (by omega)] at hlow hhigh
  have hspan := hjlo.trunc.lesser hjhi.trunc
  have hspan' := hjlo.trunc.greater hjhi.trunc
  rw [min_eq_left (hlow.trans hhigh)] at hspan
  rw [max_eq_right (hlow.trans hhigh)] at hspan'
  exact ⟨⟨_, (abs_le.mp hm).1, hlow, hspan⟩, _, hhigh, (abs_le.mp hn).2, hspan'⟩

theorem Encloses.rem (h0 : v ≠ 0) (hj : a.rem true b = some j) : j.Encloses (2 ^ 52) (u.tmod v) := by
  obtain ⟨hlow, hhigh, hsmall⟩ := tmod_between (u := u) h0
  obtain ⟨p, q, hp, hq, hpu, huq, hlo, hhi⟩ := ha.ends
  obtain ⟨r, s, hr, hs, hrv, hvs, hlo', hhi'⟩ := hb.ends
  have hdividend := abs_le_max_abs_abs hpu huq
  have hdivisor := abs_le_max_abs_abs hrv hvs
  have hmax : max |r| |s| ≤ 2 ^ 25 := max_le hr hs
  have hone : 1 ≤ |v| := Int.one_le_abs h0
  rw [abs_le] at hp hq hsmall
  rcases rem_cases hj with hsingle | ⟨hless, rfl⟩ | rfl
  · have husmall : |u| ≤ 2 ^ 53 := ha.magnitude.trans (by norm_num)
    exact ((ha.pins hsingle.1).rem (hb.pins hsingle.2) husmall h0 hj).encloses (abs_le.mpr (by omega))
  · obtain ⟨k, hk, hleast⟩ := denotes_leastDivisor h0 hrv hvs hlo' hhi'
    rw [(denotes_magnitude hlo hhi).endpoint_lt hleast] at hless
    rw [tmod_eq_of_abs_lt (by omega)]
    exact ⟨⟨p, by omega, hpu, hlo⟩, q, huq, by omega, hhi⟩
  · have hlimit : Denotes (b.magnitude - one) (max |r| |s| - 1 : ℤ) :=
      denotes_of_nearest ((denotes_magnitude hlo' hhi').sub denotes_one_int) (by push_cast; rfl)
        (abs_le.mpr (by omega))
    have hneg := hlimit.neg
    rw [← Int.cast_neg] at hneg
    simp only [hlo.endpoint_lt denotes_zero_int, denotes_zero_int.endpoint_lt hhi]
    -- a remainder has the sign of the dividend
    constructor
    · dsimp only
      split_ifs with hp0
      · exact ⟨_, by omega, by omega, hlo.greater hneg⟩
      · exact ⟨0, by norm_num, by omega, denotes_zero_int⟩
    · dsimp only
      split_ifs with hq0
      · exact ⟨_, by omega, by omega, hhi.lesser hlimit⟩
      · exact ⟨0, by omega, by norm_num, denotes_zero_int⟩

theorem Encloses.shl {bits : Nat} (hbits : bits ≤ 26)
    (hj : a.shl b bits = some j) : j.Encloses (2 ^ 52) (u * 2 ^ v.toNat) := by
  obtain ⟨p, q, hp, hq, hpu, huq, hlo, hhi⟩ := ha.ends
  obtain ⟨r, s, -, -, hrv, hvs, hlo', hhi'⟩ := hb.ends
  unfold Interval.shl at hj
  dsimp only at hj
  split_ifs at hj with hshift
  rw [Bool.not_eq_true', Bool.not_eq_false] at hshift
  obtain ⟨hp0, hr0, hs0⟩ := of_shiftable (by omega) hlo hlo' hhi' hshift
  have hshort : ∀ {k : ℤ}, k ≤ s → (2 : ℤ) ^ k.toNat ≤ 2 ^ 25 := fun h => pow_le_pow_right₀ (by norm_num) (by omega)
  have hsmall : ∀ {m k : ℤ}, |m| ≤ 2 ^ 25 → k ≤ s → |m * 2 ^ k.toNat| ≤ 2 ^ 52 := fun hm hk => by
    rw [abs_mul, abs_of_pos (by positivity : (0 : ℤ) < 2 ^ _)]
    exact (mul_le_mul hm (hshort hk) (by positivity) (by norm_num)).trans (by norm_num)
  have hmul : ∀ {x y : Float} {m k : ℤ}, Denotes x m → Denotes y k → |m| ≤ 2 ^ 25 → 0 ≤ k → k ≤ s →
      Denotes (x * Elementary.exp2 (floor y)) (m * 2 ^ k.toNat : ℤ) := fun hx hy hm hk0 hk =>
    denotes_of_nearest (hx.mul (denotes_exp2_floor hy hk0 (by omega))) (by push_cast; rfl)
      ((hsmall hm hk).trans (by norm_num))
  cases eq_of_of? hj
  refine ⟨⟨_, (abs_le.mp (hsmall hp (hrv.trans hvs))).1, ?_, hmul hlo hlo' hp hr0 (hrv.trans hvs)⟩, _, ?_,
    (abs_le.mp (hsmall hq le_rfl)).2, hmul hhi hhi' hq (by omega) le_rfl⟩
  · exact mul_le_mul hpu (pow_le_pow_right₀ (by norm_num) (by omega)) (by positivity) (by omega)
  · exact mul_le_mul huq (pow_le_pow_right₀ (by norm_num) (by omega)) (by positivity) (by omega)

theorem Encloses.shr {bits : Nat} (hbits : bits ≤ 26)
    (hj : a.shr b bits = some j) : j.Encloses (2 ^ 52) (u / 2 ^ v.toNat) := by
  obtain ⟨p, q, hp, hq, hpu, huq, hlo, hhi⟩ := ha.ends
  obtain ⟨r, s, -, -, hrv, hvs, hlo', hhi'⟩ := hb.ends
  unfold Interval.shr at hj
  split_ifs at hj with hshift
  rw [Bool.not_eq_true', Bool.not_eq_false] at hshift
  obtain ⟨hp0, hr0, hs0⟩ := of_shiftable (by omega) hlo hlo' hhi' hshift
  have hu0 : 0 ≤ u := hp0.trans hpu
  have hq0 : 0 ≤ q := hu0.trans huq
  have hpow : ∀ {k l : ℤ}, k ≤ l → (2 : ℤ) ^ k.toNat ≤ 2 ^ l.toNat := fun h => pow_le_pow_right₀ (by norm_num) (by omega)
  cases eq_of_of? hj
  refine ⟨⟨p / 2 ^ s.toNat, ?_, ?_, ?_⟩, q / 2 ^ r.toNat, ?_, ?_, ?_⟩
  · exact (by norm_num : (-2 ^ 52 : ℤ) ≤ 0).trans (Int.ediv_nonneg hp0 (by positivity))
  · exact (Int.ediv_le_ediv (by positivity) hpu).trans (ediv_le_ediv_left hu0 (by positivity) (hpow hvs))
  · exact denotes_shr hlo hp0 (hp.trans (by norm_num)) (by omega) (denotes_exp2_floor hhi' (by omega) (by omega))
  · exact (Int.ediv_le_ediv (by positivity) huq).trans (ediv_le_ediv_left hq0 (by positivity) (hpow hrv))
  · exact (Int.ediv_le_self _ hq0).trans (by rw [abs_le] at hq; omega)
  · exact denotes_shr hhi hq0 (hq.trans (by norm_num)) (by omega) (denotes_exp2_floor hlo' hr0 (by omega))

/-- A connective that keeps to the bits of its operands, given what it does to intervals of
more than one number. -/
theorem Encloses.bitwise {f : Nat → Nat → Nat} {wide : Bound → Bound → Option Bound}
    (hf : ∀ {m n e : Nat}, m < 2 ^ e → n < 2 ^ e → f m n < 2 ^ e)
    (hwide : 0 ≤ u → 0 ≤ v → wide a b = some j → j.Encloses (2 ^ 52) (f u.toNat v.toNat))
    (hj : Interval.bitwise f wide a b = some j) : j.Encloses (2 ^ 52) (f u.toNat v.toNat) := by
  have hu := ha.magnitude
  have hv := hb.magnitude
  rw [abs_le] at hu hv
  by_cases hsingle : (a.isSingleton && b.isSingleton) = true
  · rw [Bool.and_eq_true] at hsingle
    have hsmall : f u.toNat v.toNat < 2 ^ 26 := hf (by omega) (by omega)
    exact ((ha.pins hsingle.1).bitwise (hb.pins hsingle.2) (abs_le.mpr (by omega)) (abs_le.mpr (by omega))
      (by omega) hj).encloses (abs_le.mpr (by omega))
  · obtain ⟨p, q, -, -, hpu, -, hlo, -⟩ := ha.ends
    obtain ⟨r, s, -, -, hrv, -, hlo', -⟩ := hb.ends
    unfold Interval.bitwise at hj
    rw [if_neg hsingle] at hj
    split_ifs at hj with hnonneg
    rw [Bool.not_eq_true', Bool.not_eq_false, Bool.and_eq_true, isNonneg_iff_of_denotes hlo,
      isNonneg_iff_of_denotes hlo'] at hnonneg
    exact hwide (hnonneg.1.trans hpu) (hnonneg.2.trans hrv) hj

theorem Encloses.and (hj : a.and b = some j) : j.Encloses (2 ^ 52) (u.toNat &&& v.toNat : Nat) := by
  refine ha.bitwise hb (fun hm _ => (Nat.and_le_left).trans_lt hm) (fun hu hv hj => ?_) hj
  obtain ⟨p, q, -, hq, -, huq, -, hhi⟩ := ha.ends
  obtain ⟨r, s, -, hs, -, hvs, -, hhi'⟩ := hb.ends
  rw [abs_le] at hq hs
  have hleft : u.toNat &&& v.toNat ≤ u.toNat := Nat.and_le_left
  have hright : u.toNat &&& v.toNat ≤ v.toNat := Nat.and_le_right
  cases eq_of_of? hj
  exact ⟨⟨0, by norm_num, by positivity, denotes_zero_int⟩, min q s, by omega, by omega, hhi.lesser hhi'⟩

/-- Where the operands are not negative, a connective stays below the envelope of the ends. -/
theorem Encloses.le_envelope {f : Nat → Nat → Nat}
    (hf : ∀ {m n e : Nat}, m < 2 ^ e → n < 2 ^ e → f m n < 2 ^ e) (hu : 0 ≤ u) (hv : 0 ≤ v) :
    ∃ m : ℤ, (f u.toNat v.toNat : ℤ) ≤ m ∧ m ≤ 2 ^ 52 ∧ Denotes (envelope (greater a.hi b.hi)) m := by
  obtain ⟨p, q, -, hq, -, huq, -, hhi⟩ := ha.ends
  obtain ⟨r, s, -, hs, -, hvs, -, hhi'⟩ := hb.ends
  rw [abs_le] at hq hs
  obtain ⟨e, he, hlt, henv⟩ := denotes_envelope (hhi.greater hhi') (by omega) (by omega)
  have hpow : (2 : ℤ) ^ e ≤ 2 ^ 26 := pow_le_pow_right₀ (by norm_num) he
  have hnat : ((2 ^ e : Nat) : ℤ) = 2 ^ e := by push_cast; rfl
  have hbelow := hf (m := u.toNat) (n := v.toNat) (e := e) (by omega) (by omega)
  exact ⟨2 ^ e - 1, by omega, by omega, henv⟩

theorem Encloses.or (hj : a.or b = some j) : j.Encloses (2 ^ 52) (u.toNat ||| v.toNat : Nat) := by
  refine ha.bitwise hb Nat.or_lt_two_pow (fun hu hv hj => ?_) hj
  obtain ⟨p, q, hp, -, hpu, -, hlo, -⟩ := ha.ends
  obtain ⟨r, s, hr, -, hrv, -, hlo', -⟩ := hb.ends
  rw [abs_le] at hp hr
  have hleft : u.toNat ≤ u.toNat ||| v.toNat := Nat.left_le_or
  have hright : v.toNat ≤ u.toNat ||| v.toNat := Nat.right_le_or
  cases eq_of_of? hj
  exact ⟨⟨max p r, by omega, by omega, hlo.greater hlo'⟩, ha.le_envelope hb Nat.or_lt_two_pow hu hv⟩

theorem Encloses.xor (hj : a.xor b = some j) : j.Encloses (2 ^ 52) (u.toNat ^^^ v.toNat : Nat) := by
  refine ha.bitwise hb Nat.xor_lt_two_pow (fun hu hv hj => ?_) hj
  cases eq_of_of? hj
  exact ⟨⟨0, by norm_num, by positivity, denotes_zero_int⟩, ha.le_envelope hb Nat.xor_lt_two_pow hu hv⟩

end Operations

end Interval

end RangedIR
