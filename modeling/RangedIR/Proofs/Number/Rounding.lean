/-
RangedIR.Proofs.Number.Rounding — rounding of exact numbers to binary64.

`rounded q` is the rational that binary64 rounds `q` to, before the range of
exponents is cut off above: the nearest multiple of the last place of `q`, a tie
going to the even multiple. The three facts that later modules use:

  §1 the nearest integer keeps the order and moves a number by at most a half;
  §2 `rounded` keeps the order (`rounded_mono`) and the sign (`rounded_neg`);
  §3 `rounded` does not move a number that binary64 has (`rounded_of_representable`),
     in particular no integer of magnitude up to `2^53`.
-/
import Mathlib

namespace RangedIR.Number

/-! ## 1. The nearest integer -/

/-- The integer nearest to a number, a half going to the even one. -/
def nearestEven (q : ℚ) : ℤ :=
  if Int.fract q < 1 / 2 then ⌊q⌋
  else if 1 / 2 < Int.fract q then ⌊q⌋ + 1
  else ⌊q⌋ + ⌊q⌋ % 2

theorem floor_le_nearestEven (q : ℚ) : ⌊q⌋ ≤ nearestEven q := by
  unfold nearestEven
  split_ifs <;> omega

theorem nearestEven_le_floor_add_one (q : ℚ) : nearestEven q ≤ ⌊q⌋ + 1 := by
  unfold nearestEven
  split_ifs <;> omega

@[simp] theorem nearestEven_intCast (n : ℤ) : nearestEven n = n := by
  simp [nearestEven]

/-- The nearest integer is at most a half away. -/
theorem abs_nearestEven_sub_le (q : ℚ) : |(nearestEven q : ℚ) - q| ≤ 1 / 2 := by
  have hq : (⌊q⌋ : ℚ) + Int.fract q = q := Int.floor_add_fract q
  have h0 := Int.fract_nonneg q
  have h1 := Int.fract_lt_one q
  have hpar : (⌊q⌋ % 2 : ℤ) = 0 ∨ (⌊q⌋ % 2 : ℤ) = 1 := by omega
  unfold nearestEven
  rw [abs_le]
  split_ifs with hlt hgt
  · constructor <;> linarith
  · push_cast
    constructor <;> linarith
  · have hhalf : Int.fract q = 1 / 2 := le_antisymm (not_lt.mp hgt) (not_lt.mp hlt)
    rcases hpar with h | h <;> rw [h] <;> push_cast <;> constructor <;> linarith

variable {p q : ℚ} {n : ℤ}

theorem nearestEven_mono (h : p ≤ q) : nearestEven p ≤ nearestEven q := by
  have hfl : ⌊p⌋ ≤ ⌊q⌋ := Int.floor_mono h
  rcases hfl.lt_or_eq with hlt | heq
  · have hp := nearestEven_le_floor_add_one p
    have hq := floor_le_nearestEven q
    omega
  · -- Between the same two integers the order of the fractions decides.
    have hfr : Int.fract p ≤ Int.fract q := by
      have hp := Int.floor_add_fract p
      have hq := Int.floor_add_fract q
      rw [heq] at hp
      linarith
    unfold nearestEven
    rw [heq]
    split_ifs <;> try omega
    all_goals exfalso; linarith

theorem le_nearestEven (h : (n : ℚ) ≤ q) : n ≤ nearestEven q := by
  simpa using nearestEven_mono h

theorem nearestEven_le (h : q ≤ (n : ℚ)) : nearestEven q ≤ n := by
  simpa using nearestEven_mono h

theorem nearestEven_neg (q : ℚ) : nearestEven (-q) = -nearestEven q := by
  by_cases hz : Int.fract q = 0
  · obtain ⟨n, rfl⟩ : ∃ n : ℤ, (n : ℚ) = q := ⟨⌊q⌋, by
      have := Int.floor_add_fract q
      rw [hz] at this
      linarith⟩
    rw [← Int.cast_neg, nearestEven_intCast, nearestEven_intCast]
  · have hfr : Int.fract (-q) = 1 - Int.fract q := Int.fract_neg hz
    have hfl : ⌊-q⌋ = -⌊q⌋ - 1 := by
      have h1 := Int.floor_add_fract q
      have h2 := Int.floor_add_fract (-q)
      rw [hfr] at h2
      have h3 : (⌊-q⌋ : ℚ) = ((-⌊q⌋ - 1 : ℤ) : ℚ) := by push_cast; linarith
      exact_mod_cast h3
    unfold nearestEven
    rw [hfr, hfl]
    split_ifs <;> try omega
    all_goals exfalso; linarith

/-! ## 2. Rounding to the last place -/

/-- The exponent of the last place that binary64 keeps of a number. -/
def lastPlace (q : ℚ) : ℤ := max (Int.log 2 |q| - 52) (-1074)

/-- The number that binary64 rounds to, exponents being unbounded above. -/
def rounded (q : ℚ) : ℚ := nearestEven (q / 2 ^ lastPlace q) * 2 ^ lastPlace q

theorem place_pos (e : ℤ) : (0 : ℚ) < 2 ^ e := zpow_pos (by norm_num) e

theorem place_add (a b : ℤ) : (2 : ℚ) ^ (a + b) = 2 ^ a * 2 ^ b := zpow_add₀ (by norm_num) a b

theorem place_toNat {e : ℤ} (h : 0 ≤ e) : (2 : ℚ) ^ e = ((2 ^ e.toNat : ℤ) : ℚ) := by
  obtain ⟨n, rfl⟩ := Int.eq_ofNat_of_zero_le h
  simp

@[simp] theorem lastPlace_neg (q : ℚ) : lastPlace (-q) = lastPlace q := by simp [lastPlace]

theorem rounded_neg (q : ℚ) : rounded (-q) = -rounded q := by
  simp [rounded, neg_div, nearestEven_neg]

@[simp] theorem rounded_zero : rounded 0 = 0 := by
  have h : nearestEven 0 = 0 := by simpa using nearestEven_intCast 0
  simp [rounded, h]

/-- A multiple of the last place above a number stays above it. -/
theorem rounded_le_multiple (h : q ≤ n * 2 ^ lastPlace q) : rounded q ≤ n * 2 ^ lastPlace q := by
  have hp := place_pos (lastPlace q)
  have hn : nearestEven (q / 2 ^ lastPlace q) ≤ n := nearestEven_le ((div_le_iff₀ hp).mpr h)
  exact mul_le_mul_of_nonneg_right (by exact_mod_cast hn) hp.le

/-- A multiple of the last place below a number stays below it. -/
theorem multiple_le_rounded (h : n * 2 ^ lastPlace q ≤ q) : n * 2 ^ lastPlace q ≤ rounded q := by
  have hp := place_pos (lastPlace q)
  have hn : n ≤ nearestEven (q / 2 ^ lastPlace q) := le_nearestEven ((le_div_iff₀ hp).mpr h)
  exact mul_le_mul_of_nonneg_right (by exact_mod_cast hn) hp.le

theorem rounded_nonneg (h : 0 ≤ q) : 0 ≤ rounded q := by
  have := multiple_le_rounded (q := q) (n := 0) (by simpa using h)
  simpa using this

/-- Rounding moves a number by at most half a unit of its last place. -/
theorem abs_rounded_sub_le (q : ℚ) : |rounded q - q| ≤ 2 ^ lastPlace q / 2 := by
  have hp := place_pos (lastPlace q)
  have hq : q = q / 2 ^ lastPlace q * 2 ^ lastPlace q := (div_mul_cancel₀ q hp.ne').symm
  have h := abs_nearestEven_sub_le (q / 2 ^ lastPlace q)
  have hd : rounded q - q
      = ((nearestEven (q / 2 ^ lastPlace q) : ℚ) - q / 2 ^ lastPlace q) * 2 ^ lastPlace q := by
    rw [sub_mul, ← hq]
    rfl
  rw [hd, abs_mul, abs_of_pos hp]
  linarith [mul_le_mul_of_nonneg_right h hp.le]

theorem lastPlace_mono (hp : 0 < p) (h : p ≤ q) : lastPlace p ≤ lastPlace q := by
  have hq : 0 < q := hp.trans_le h
  have hl : Int.log 2 p ≤ Int.log 2 q := Int.log_mono_right hp h
  unfold lastPlace
  rw [abs_of_pos hp, abs_of_pos hq]
  omega

/-- Rounding keeps the order of positive numbers. Where the last places differ, a
power of two stands between the two numbers, and rounding moves neither over it. -/
theorem rounded_mono_pos (hp : 0 < p) (h : p ≤ q) : rounded p ≤ rounded q := by
  have hq : 0 < q := hp.trans_le h
  rcases (lastPlace_mono hp h).lt_or_eq with hlt | heq
  · have hlog : lastPlace q = Int.log 2 q - 52 := by
      unfold lastPlace at hlt ⊢
      rw [abs_of_pos hq] at hlt ⊢
      omega
    have hpq : Int.log 2 p < Int.log 2 q := by
      unfold lastPlace at hlt hlog
      rw [abs_of_pos hp, abs_of_pos hq] at hlt
      rw [abs_of_pos hq] at hlog
      omega
    have hup : rounded p ≤ 2 ^ Int.log 2 q := by
      have hsplit : (2 : ℚ) ^ Int.log 2 q
          = ((2 ^ (Int.log 2 q - lastPlace p).toNat : ℤ) : ℚ) * 2 ^ lastPlace p := by
        rw [← place_toNat (by omega), ← place_add]
        congr 1
        omega
      rw [hsplit]
      apply rounded_le_multiple
      rw [← hsplit]
      calc p ≤ 2 ^ (Int.log 2 p + 1) := (Int.lt_zpow_succ_log_self (by norm_num) p).le
        _ ≤ 2 ^ Int.log 2 q := zpow_le_zpow_right₀ (by norm_num) (by omega)
    have hdown : (2 : ℚ) ^ Int.log 2 q ≤ rounded q := by
      have hsplit : (2 : ℚ) ^ Int.log 2 q = ((2 ^ 52 : ℤ) : ℚ) * 2 ^ lastPlace q := by
        rw [hlog, show ((2 ^ 52 : ℤ) : ℚ) = 2 ^ (52 : ℤ) by norm_num, ← place_add]
        congr 1
        omega
      rw [hsplit]
      apply multiple_le_rounded
      rw [← hsplit]
      exact Int.zpow_log_le_self (by norm_num) hq
    exact hup.trans hdown
  · have hpos := place_pos (lastPlace q)
    unfold rounded
    rw [heq]
    have hdiv : p / 2 ^ lastPlace q ≤ q / 2 ^ lastPlace q := div_le_div_of_nonneg_right h hpos.le
    exact mul_le_mul_of_nonneg_right (by exact_mod_cast nearestEven_mono hdiv) hpos.le

/-- Rounding keeps the order. -/
theorem rounded_mono (h : p ≤ q) : rounded p ≤ rounded q := by
  rcases lt_or_ge 0 p with hp | hp
  · exact rounded_mono_pos hp h
  rcases lt_or_ge q 0 with hq | hq
  · have := rounded_mono_pos (neg_pos.mpr hq) (neg_le_neg h)
    rw [rounded_neg, rounded_neg] at this
    linarith
  · have h1 : rounded p ≤ 0 := by
      have := rounded_nonneg (neg_nonneg.mpr hp)
      rw [rounded_neg] at this
      linarith
    exact h1.trans (rounded_nonneg hq)

/-! ## 3. Numbers that are not moved -/

/-- Binary64 has the number, exponents being unbounded above. -/
def Representable (q : ℚ) : Prop := ∃ k e : ℤ, |k| < 2 ^ 53 ∧ -1074 ≤ e ∧ q = k * 2 ^ e

theorem Representable.neg : Representable q → Representable (-q) := by
  rintro ⟨k, e, hk, he, rfl⟩
  exact ⟨-k, e, by simpa using hk, he, by push_cast; ring⟩

/-- A number that is a multiple of its last place is not moved. -/
theorem rounded_multiple (h : q = n * 2 ^ lastPlace q) : rounded q = q :=
  le_antisymm ((rounded_le_multiple h.le).trans h.symm.le)
    (h.le.trans (multiple_le_rounded h.symm.le))

theorem rounded_of_representable (h : Representable q) : rounded q = q := by
  obtain ⟨k, e, hk, he, rfl⟩ := h
  by_cases hz : k = 0
  · simp [hz]
  have hq : 0 < |(k : ℚ) * 2 ^ e| := abs_pos.mpr (mul_ne_zero (by exact_mod_cast hz) (place_pos e).ne')
  have hup : |(k : ℚ) * 2 ^ e| < 2 ^ (53 + e) := by
    rw [abs_mul, abs_of_pos (place_pos e), place_add]
    have hk' : |(k : ℚ)| < 2 ^ (53 : ℤ) := by
      rw [← Int.cast_abs]
      exact_mod_cast hk
    exact mul_lt_mul_of_pos_right hk' (place_pos e)
  have hlog : Int.log 2 |(k : ℚ) * 2 ^ e| < 53 + e := (Int.lt_zpow_iff_log_lt (by norm_num) hq).mp hup
  have hle : lastPlace ((k : ℚ) * 2 ^ e) ≤ e := by
    unfold lastPlace
    omega
  apply rounded_multiple (n := k * 2 ^ (e - lastPlace ((k : ℚ) * 2 ^ e)).toNat)
  have hsplit : (2 : ℚ) ^ e = ((2 ^ (e - lastPlace ((k : ℚ) * 2 ^ e)).toNat : ℤ) : ℚ)
      * 2 ^ lastPlace ((k : ℚ) * 2 ^ e) := by
    rw [← place_toNat (by omega), ← place_add]
    congr 1
    omega
  rw [Int.cast_mul, mul_assoc, ← hsplit]

/-- Binary64 has every integer up to `2^53`. -/
theorem representable_int (h : |n| ≤ 2 ^ 53) : Representable n := by
  rcases h.lt_or_eq with hlt | heq
  · exact ⟨n, 0, hlt, by norm_num, by simp⟩
  · rcases abs_eq (by norm_num : (0 : ℤ) ≤ 2 ^ 53) |>.mp heq with rfl | rfl
    · exact ⟨2 ^ 52, 1, by norm_num, by norm_num, by norm_num⟩
    · exact ⟨-2 ^ 52, 1, by norm_num, by norm_num, by norm_num⟩

/-- Binary64 has every power of two that is not too small. -/
theorem representable_place {e : ℤ} (h : -1074 ≤ e) : Representable (2 ^ e) :=
  ⟨1, e, by norm_num, h, by simp⟩

theorem rounded_int (h : |n| ≤ 2 ^ 53) : rounded n = n :=
  rounded_of_representable (representable_int h)

/-- Rounding does not pass a number that binary64 has, from above. -/
theorem le_rounded (hp : Representable p) (h : p ≤ q) : p ≤ rounded q := by
  simpa [rounded_of_representable hp] using rounded_mono h

/-- Rounding does not pass a number that binary64 has, from below. -/
theorem rounded_le (hp : Representable p) (h : q ≤ p) : rounded q ≤ p := by
  simpa [rounded_of_representable hp] using rounded_mono h

end RangedIR.Number
