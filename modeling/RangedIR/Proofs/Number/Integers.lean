/-
RangedIR.Proofs.Number.Integers — operations on the integers that binary64 holds.

Integers up to `2^53` in magnitude are binary64 numbers. On them quotients, remainders,
powers of two and integer parts are exact, although the quotient is rounded on the way.
-/
import RangedIR.Number.Elementary
import RangedIR.Proofs.Number.Conversion

namespace RangedIR.Number

/-! ## 1. Quotients -/

/-- The place of the last bit of a number that is not tiny. -/
theorem lastPlace_eq {q : ℚ} (hq : 2 ^ (-100 : ℤ) ≤ q) : lastPlace q = Int.log 2 q - 52 := by
  have hpos : 0 < q := (place_pos _).trans_le hq
  have hlog : (-100 : ℤ) ≤ Int.log 2 q := by
    have := Int.log_mono_right (b := 2) (place_pos (-100)) hq
    rwa [show (2 : ℚ) = ((2 : ℕ) : ℚ) by norm_num, Int.log_zpow (by norm_num)] at this
  unfold lastPlace
  rw [abs_of_pos hpos]
  omega

/-- Rounding takes no quotient of two such integers up to the next integer: a quotient that
is not an integer differs from it by more than half of its last place. -/
theorem rounded_natCast_div_lt {m n : Nat} (hm : m ≤ 2 ^ 53) (hn : n ≤ 2 ^ 53) (h0 : 0 < n) :
    rounded ((m : ℚ) / n) < ((m / n + 1 : Nat) : ℚ) := by
  have hn0 : (0 : ℚ) < n := by exact_mod_cast h0
  by_cases hdvd : n ∣ m
  · obtain ⟨k, rfl⟩ := hdvd
    have hk : k ≤ 2 ^ 53 := (Nat.le_mul_of_pos_left k h0).trans hm
    have hq : ((n * k : Nat) : ℚ) / n = ((k : ℤ) : ℚ) := by
      push_cast
      field_simp
    rw [hq, rounded_int (by rw [abs_of_nonneg (by positivity)]; exact_mod_cast hk), Nat.mul_div_cancel_left k h0]
    push_cast
    linarith
  · set q : ℚ := (m : ℚ) / n with hq
    have hmul : (m : ℚ) = n * q := by rw [hq]; field_simp
    by_contra hge
    rw [not_lt] at hge
    have hm0 : 0 < m := Nat.pos_of_ne_zero fun h => hdvd (h ▸ dvd_zero n)
    -- the distance to the next integer is a multiple of `1 / n`
    have hgap : 1 / (n : ℚ) ≤ ((m / n + 1 : Nat) : ℚ) - q := by
      have hmod : m % n + 1 ≤ n := Nat.mod_lt m h0
      have hdiv : (m : ℚ) = n * (m / n : Nat) + (m % n : Nat) := by exact_mod_cast (Nat.div_add_mod m n).symm
      have hle : ((m % n : Nat) : ℚ) + 1 ≤ n := by exact_mod_cast hmod
      rw [div_le_iff₀ hn0, sub_mul, mul_comm q, ← hmul]
      push_cast
      linarith
    have hlow : 1 / (n : ℚ) ≤ q := by
      rw [hq]
      gcongr
      exact_mod_cast hm0
    have hfine : lastPlace q = Int.log 2 q - 52 := by
      refine lastPlace_eq (le_trans ?_ hlow)
      rw [le_div_iff₀ hn0]
      calc (2 : ℚ) ^ (-100 : ℤ) * n ≤ 2 ^ (-100 : ℤ) * 2 ^ 53 := by
            gcongr
            exact_mod_cast hn
        _ ≤ 1 := by norm_num
    have hround := (abs_le.mp (abs_rounded_sub_le q)).2
    have hpow : (2 : ℚ) ^ Int.log 2 q ≤ q := Int.zpow_log_le_self (by norm_num) ((one_div_pos.mpr hn0).trans_le hlow)
    -- so the dividend is at least `2^53`, hence equal to it, and the quotient is a power of two
    have hsmall : 1 / (n : ℚ) ≤ 2 ^ Int.log 2 q / 2 ^ 53 := by
      have hplace : (2 : ℚ) ^ lastPlace q / 2 = 2 ^ Int.log 2 q / 2 ^ 53 := by
        rw [hfine, zpow_sub₀ (by norm_num)]
        norm_num
        ring
      linarith
    have hbig : (2 : ℚ) ^ 53 ≤ n * 2 ^ Int.log 2 q := by
      rw [div_le_div_iff₀ hn0 (by norm_num)] at hsmall
      linarith
    have hm' : (m : ℚ) ≤ 2 ^ 53 := by exact_mod_cast hm
    have hpower : q = 2 ^ Int.log 2 q := by
      refine le_antisymm ?_ hpow
      have : (n : ℚ) * q ≤ n * 2 ^ Int.log 2 q := by linarith
      exact le_of_mul_le_mul_left this hn0
    have hlog : 0 ≤ Int.log 2 q := by
      by_contra hneg
      have h1 : (2 : ℚ) ^ Int.log 2 q < 2 ^ (0 : ℤ) := zpow_lt_zpow_right₀ (by norm_num) (not_le.mp hneg)
      have h2 : (n : ℚ) ≤ 2 ^ 53 := by exact_mod_cast hn
      nlinarith
    rw [hpower, place_toNat hlog] at hmul
    exact hdvd ⟨2 ^ (Int.log 2 q).toNat, by exact_mod_cast hmul⟩

variable {a b : ℤ}

/-- The integer part of a quotient of integers survives the rounding of the quotient. -/
theorem towardZero_rounded_div (ha : |a| ≤ 2 ^ 53) (hb : |b| ≤ 2 ^ 53) (h0 : b ≠ 0) :
    towardZero (rounded ((a : ℚ) / b)) = a.tdiv b := by
  have hnat : ∀ {m n : Nat}, m ≤ 2 ^ 53 → n ≤ 2 ^ 53 → 0 < n → towardZero (rounded ((m : ℚ) / n)) = (m / n : Nat) := by
    intro m n hm hn h0
    have hlow : ((m / n : Nat) : ℚ) ≤ rounded ((m : ℚ) / n) := by
      have hk : m / n ≤ 2 ^ 53 := (Nat.div_le_self m n).trans hm
      have hrep : Representable (((m / n : Nat) : ℤ) : ℚ) :=
        representable_int (by rw [abs_of_nonneg (by positivity)]; exact_mod_cast hk)
      exact_mod_cast le_rounded hrep (by exact_mod_cast Nat.cast_div_le)
    have hhigh := rounded_natCast_div_lt hm hn h0
    unfold towardZero
    rw [if_pos ((Nat.cast_nonneg _).trans hlow), Int.floor_eq_iff]
    exact ⟨by exact_mod_cast hlow, by exact_mod_cast hhigh⟩
  obtain ⟨m, rfl | rfl⟩ := Int.eq_nat_or_neg a <;> obtain ⟨n, rfl | rfl⟩ := Int.eq_nat_or_neg b <;>
    simp only [abs_neg, Nat.abs_cast, ne_eq, neg_eq_zero, Int.natCast_eq_zero] at ha hb h0 <;>
    simp only [Int.cast_neg, neg_div, div_neg, rounded_neg, towardZero_neg, Int.neg_tdiv, Int.tdiv_neg,
      Int.cast_natCast, Int.ofNat_tdiv, hnat (by exact_mod_cast ha) (by exact_mod_cast hb) (Nat.pos_of_ne_zero h0)]

theorem Denotes.div_int {x y : Float} (hx : Denotes x a) (hy : Denotes y b) (ha : |a| ≤ 2 ^ 53)
    (h0 : b ≠ 0) : Denotes (x / y) (rounded ((a : ℚ) / b)) := by
  have hdiv := hx.div hy (by exact_mod_cast h0)
  have hsmall : |rounded ((a : ℚ) / b)| ≤ 2 ^ 53 := by
    have hq : |(a : ℚ) / b| ≤ ((2 ^ 53 : ℤ) : ℚ) := by
      rw [abs_div]
      have h1 : (1 : ℚ) ≤ |(b : ℚ)| := by exact_mod_cast Int.one_le_abs h0
      have h2 : |(a : ℚ)| ≤ ((2 ^ 53 : ℤ) : ℚ) := by exact_mod_cast ha
      exact (div_le_self (abs_nonneg _) h1).trans h2
    have hrep : Representable ((2 ^ 53 : ℤ) : ℚ) := representable_int (by norm_num)
    have hrep' : Representable (-((2 ^ 53 : ℤ) : ℚ)) := hrep.neg
    have h1 := le_rounded hrep' (abs_le.mp hq).1
    have h2 := rounded_le hrep (abs_le.mp hq).2
    push_cast at h1 h2
    exact abs_le.mpr ⟨h1, h2⟩
  have hlimit : |rounded ((a : ℚ) / b)| < limit := hsmall.trans_lt (two_pow_lt_limit (e := 53) (by norm_num))
  exact denotes_of_exact hdiv.1 (hdiv.2.trans (nearest_of_lt hlimit))

theorem Denotes.trunc_div {x y : Float} (hx : Denotes x a) (hy : Denotes y b) (ha : |a| ≤ 2 ^ 53)
    (hb : |b| ≤ 2 ^ 53) (h0 : b ≠ 0) : Denotes (Number.trunc (x / y)) (a.tdiv b : ℤ) := by
  have := (hx.div_int hy ha h0).trunc
  rwa [towardZero_rounded_div ha hb h0] at this

/-! ## 2. Remainders -/

/-- A number at a place at or below its own. -/
theorem scaled_shift (s : Bool) (m : Nat) {e last : ℤ} (h : last ≤ e) :
    scaled s m e = scaled s (m * 2 ^ (e - last).toNat) last := by
  have hplace : (2 : ℚ) ^ e = 2 ^ (e - last).toNat * 2 ^ last := by
    rw [← zpow_natCast, Int.toNat_of_nonneg (by omega), ← place_add]
    congr 1
    omega
  unfold scaled
  rw [hplace]
  push_cast
  split_ifs <;> ring

/-- The remainder of the significands is the remainder of the numbers. -/
theorem scaled_mod {s t : Bool} {m n : Nat} {last : ℤ} (hn : n ≠ 0) (ha : scaled s m last = a)
    (hb : scaled t n last = b) : scaled s (m % n) last = (a.tmod b : ℤ) := by
  have hp := (place_pos last).ne'
  have hn0 : (n : ℚ) ≠ 0 := by exact_mod_cast hn
  have hdiv : ((a.tdiv b : ℤ) : ℚ) = (if s = t then 1 else -1) * ((m / n : Nat) : ℚ) := by
    have hq : (a : ℚ) / b = (if s = t then 1 else -1) * ((m : ℚ) / n) := by
      rw [← ha, ← hb]
      cases s <;> cases t <;> simp [scaled] <;> field_simp
    rw [← towardZero_div, hq]
    split_ifs
    · rw [one_mul, one_mul, towardZero_natCast_div, Int.cast_natCast]
    · rw [neg_one_mul, neg_one_mul, towardZero_neg, towardZero_natCast_div, Int.cast_neg, Int.cast_natCast]
  have hmod : ((m % n : Nat) : ℚ) = m - n * ((m / n : Nat) : ℚ) := by
    rw [eq_sub_iff_add_eq]
    exact_mod_cast Nat.mod_add_div m n
  rw [Int.tmod_def]
  push_cast
  rw [hdiv, ← ha, ← hb]
  unfold scaled
  rw [hmod]
  cases s <;> cases t <;> simp <;> ring

theorem Denotes.rem {x y : Float} (hx : Denotes x a) (hy : Denotes y b) (ha : |a| ≤ 2 ^ 53) (h0 : b ≠ 0) :
    Denotes (Number.rem x y) (a.tmod b : ℤ) := by
  obtain ⟨s, m, e, hdx, hsx⟩ := hx
  obtain ⟨t, n, k, hdy, hsy⟩ := hy
  have hn : n ≠ 0 := by
    rintro rfl
    rw [scaled_zero] at hsy
    exact h0 (by exact_mod_cast hsy.symm)
  have hvalue := scaled_mod (m := m * 2 ^ (e - min e k).toNat) (n := n * 2 ^ (k - min e k).toNat)
    (mul_ne_zero hn (by positivity)) ((scaled_shift s m (min_le_left e k)).symm.trans hsx)
    ((scaled_shift t n (min_le_right e k)).symm.trans hsy)
  have hsmall : |a.tmod b| ≤ 2 ^ 53 := by
    refine le_trans ?_ ha
    rw [Int.abs_eq_natAbs, Int.abs_eq_natAbs, Int.natAbs_tmod]
    exact_mod_cast Nat.mod_le _ _
  unfold Number.rem
  rw [hdx, hdy]
  dsimp only
  rw [if_neg hn, ← hvalue]
  apply denotes_ofDatum
  · rw [hvalue]
    exact representable_int hsmall
  · rw [hvalue]
    exact abs_int_lt_limit (by omega)

/-! ## 3. Powers of two -/

namespace Elementary

theorem toFixed_nat {s : Bool} {m : Nat} {e : ℤ} {k : Nat} (h : scaled s m e = k) : toFixed s m e = k * unit := by
  have hnat : ∀ {m : Nat}, scaled false m e = k →
      (m * 2 ^ (e + precision).toNat) / 2 ^ (-(e + precision)).toNat = k * unit := by
    intro m h
    refine Nat.div_eq_of_eq_mul_left (by positivity) ?_
    have hplaces : (2 : ℚ) ^ (e + precision).toNat = 2 ^ e * 2 ^ precision * 2 ^ (-(e + precision)).toNat := by
      rw [← zpow_natCast, ← zpow_natCast, ← zpow_natCast, ← place_add, ← place_add]
      congr 1
      omega
    have : (m : ℚ) * 2 ^ (e + precision).toNat = k * 2 ^ precision * 2 ^ (-(e + precision)).toNat := by
      rw [hplaces, ← h]
      simp only [scaled, Bool.false_eq_true, if_false]
      ring
    unfold unit
    exact_mod_cast this
  cases s with
  | false =>
    rw [toFixed, hnat h]
    simp
  | true =>
    -- only zero has both signs
    have hle : scaled false m e = 0 := by
      rw [scaled_true] at h
      have hk : (0 : ℚ) ≤ k := Nat.cast_nonneg k
      rcases Nat.eq_zero_or_pos m with rfl | hm
      · exact scaled_zero false e
      · have := scaled_pos hm e
        linarith
    have hk : k = 0 := by
      rw [scaled_true, hle] at h
      exact_mod_cast h.symm.trans neg_zero
    subst hk
    have := hnat (m := m) (by rw [hle, Nat.cast_zero])
    rw [toFixed, this]
    simp

theorem expUnit_zero : expUnit 0 = unit := by decide +kernel

theorem denotes_exp2 {x : Float} {k : Nat} (hx : Denotes x k) (hk : k < 1024) : Denotes (exp2 x) (2 ^ k) := by
  have hhigh : Denotes 1100.0 1100 := ⟨false, 1100 * 2 ^ 42, -42, by rfl, by norm_num [scaled]⟩
  have hlow : Denotes (-1100.0) (-1100) := hhigh.neg
  have hbelow : ¬ 1100.0 < x := fun h => by
    have := (lt_iff.mp h).2.2
    rw [hhigh.exact, hx.exact] at this
    have : (1100 : ℚ) < k := WithTop.coe_lt_coe.mp (WithBot.coe_lt_coe.mp this)
    have : 1100 < k := by exact_mod_cast this
    omega
  have habove : ¬ x < -1100.0 := fun h => by
    have := (lt_iff.mp h).2.2
    rw [hlow.exact, hx.exact] at this
    have h1 : (k : ℚ) < -1100 := WithTop.coe_lt_coe.mp (WithBot.coe_lt_coe.mp this)
    have h2 : (0 : ℚ) ≤ k := Nat.cast_nonneg k
    linarith
  obtain ⟨s, m, e, hd, hs⟩ := hx
  unfold exp2
  rw [hd]
  dsimp only
  split_ifs with hnegligible
  · -- the only integer that is so small is zero
    have hzero : k = 0 := by
      rw [negligible, Bool.or_eq_true, beq_iff_eq, decide_eq_true_iff] at hnegligible
      rcases hnegligible with rfl | hsmall
      · rw [scaled_zero] at hs
        exact_mod_cast hs.symm
      · have hle : (k : ℚ) ≤ m * 2 ^ e := by
          rw [← hs, scaled]
          have := mul_nonneg (Nat.cast_nonneg (α := ℚ) m) (place_pos e).le
          split_ifs <;> linarith
        have hlt : (m : ℚ) * 2 ^ e < 1 := by
          have hm : (m : ℚ) < 2 ^ (m.log2 + 1) := by exact_mod_cast Nat.lt_log2_self
          calc (m : ℚ) * 2 ^ e < 2 ^ (m.log2 + 1) * 2 ^ e := mul_lt_mul_of_pos_right hm (place_pos e)
            _ = 2 ^ ((m.log2 + 1 : ℤ) + e) := by rw [place_add, ← zpow_natCast]; push_cast; rfl
            _ ≤ 2 ^ (0 : ℤ) := zpow_le_zpow_right₀ (by norm_num) (by omega)
            _ = 1 := zpow_zero 2
        have : (k : ℚ) < 1 := hle.trans_lt hlt
        exact Nat.lt_one_iff.mp (by exact_mod_cast this)
    rw [hzero, pow_zero]
    exact denotes_one
  · rw [toFixed_nat hs, Int.mul_ediv_cancel _ (by decide), sub_self, Int.toNat_zero, zero_mul, Nat.zero_div]
    have hvalue : scaled false unit (k - precision) = 2 ^ k := by
      simp only [scaled, Bool.false_eq_true, if_false, unit]
      push_cast
      rw [← zpow_natCast, ← zpow_natCast, ← place_add]
      congr 1
      omega
    unfold scaledExp
    rw [expUnit_zero, ← hvalue]
    apply denotes_ofDatum
    · rw [hvalue, ← zpow_natCast]
      exact representable_place (by omega)
    · rw [hvalue, abs_of_pos (by positivity), ← zpow_natCast]
      exact two_pow_lt_limit (by omega)

end Elementary

end RangedIR.Number
