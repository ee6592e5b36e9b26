/-
RangedIR.Proofs.Number.Conversion — conversions of numbers are exact or rounded once.

  §1 writing a datum rounds it once, and writing what binary64 has loses nothing;
  §2 numbers of integers and powers of two;
  §3 integer parts;
  §4 bounded integers.
-/
import RangedIR.Proofs.Number.Arithmetic

namespace RangedIR.Number

open Float.Model Float.Model.UnpackedFloat Format

/-! ## 1. Writing a datum -/

theorem datum_ofBits (b : UInt64) : datum (Float.ofBits b) = double.decode b.toNat := by
  have hn : (ofUnpacked (UnpackedFloat.unpack binary64 b.toBitVec)).Normal := by
    rw [ofUnpacked_unpack]
    exact normal_decode _
  calc datum (Float.ofBits b) = (ofUnpacked (UnpackedFloat.unpack binary64 b.toBitVec)).cut :=
        datum_pack hn
    _ = double.decode b.toNat := by
        rw [ofUnpacked_unpack, cut_decode]
        rfl

/-- Division with rounding gives the nearest integer. -/
theorem roundDiv_eq (a : Nat) {b : Nat} (hb : 0 < b) : (roundDiv a b : ℤ) = nearestEven (a / b) := by
  have hdesc := (describes_fraction a hb).roundedMantissa
  rw [← hdesc]
  congr 1
  unfold roundDiv ExtendedMantissa.roundedMantissa accuracyOfFraction
  by_cases hz : a % b = 0
  · simp [hz, hb, ExtendedMantissa.ofMantissaAndAccuracy, ExtendedMantissa.accuracy,
      Accuracy.roundToNearestEven]
  · rcases lt_trichotomy (2 * (a % b)) b with h | h | h
    · simp [hz, h, compare_lt_iff_lt.mpr h, ExtendedMantissa.ofMantissaAndAccuracy,
        ExtendedMantissa.accuracy, Accuracy.roundToNearestEven]
    · simp only [hz, h, compare_eq_iff_eq.mpr rfl, ExtendedMantissa.ofMantissaAndAccuracy,
        ExtendedMantissa.accuracy, Accuracy.roundToNearestEven]
      rcases Nat.mod_two_eq_zero_or_one (a / b) with h2 | h2 <;> simp [h2]
    · simp only [hz, compare_gt_iff_gt.mpr h, ExtendedMantissa.ofMantissaAndAccuracy,
        ExtendedMantissa.accuracy, Accuracy.roundToNearestEven]
      simp [h.not_gt, h.ne']

/-- The pattern with a significand added to its exponent field denotes the carried number. -/
theorem decode_carried (s : Bool) {n : Nat} {t : Int} (hn : n ≤ 2 ^ 53) (ht : -1074 ≤ t)
    (h : 2 ^ 52 ≤ n ∨ t = -1074) :
    double.decode (s.toNat * 2 ^ 63 + min ((t + 1074).toNat * 2 ^ 52 + n) (2047 * 2 ^ 52))
      = (carried s n t).cut := by
  have hinf := decode_fields s (show 2047 < 2 ^ 11 by norm_num) (show 0 < 2 ^ 52 by norm_num)
  rw [if_pos rfl, if_pos rfl, Nat.add_zero] at hinf
  set L := (t + 1074).toNat with hL
  have hLt : (L : Int) = t + 1074 := by omega
  by_cases hlow : n < 2 ^ 52
  · -- Only the smallest exponent has significands below the leading place.
    have ht0 : t = -1074 := h.resolve_left (by omega)
    have hmin : min (L * 2 ^ 52 + n) (2047 * 2 ^ 52) = 0 * 2 ^ 52 + n := by omega
    have hn53 : n < 2 ^ 53 := by omega
    rw [hmin, ← Nat.add_assoc, decode_fields s (by norm_num) hlow, if_neg (by norm_num), if_pos rfl,
      carried, if_pos hn53, ht0]
    rfl
  by_cases hfull : n < 2 ^ 53
  · simp only [carried, if_pos hfull, Datum.cut]
    by_cases hbig : t ≤ 971
    · have hmin : min (L * 2 ^ 52 + n) (2047 * 2 ^ 52) = (L + 1) * 2 ^ 52 + (n - 2 ^ 52) := by omega
      have h1 : 2 ^ 52 + (n - 2 ^ 52) = n := by omega
      have h2 : (-1075 : Int) + ((L + 1 : Nat) : Int) = t := by omega
      rw [if_pos hbig, hmin, ← Nat.add_assoc, decode_fields s (by omega) (by omega), if_neg (by omega),
        if_neg (by omega), h1, h2]
    · have hmin : min (L * 2 ^ 52 + n) (2047 * 2 ^ 52) = 2047 * 2 ^ 52 := by omega
      rw [if_neg hbig, hmin, hinf]
  · simp only [carried, if_neg hfull, Datum.cut]
    by_cases hbig : t + 1 ≤ 971
    · have hmin : min (L * 2 ^ 52 + n) (2047 * 2 ^ 52) = (L + 2) * 2 ^ 52 + 0 := by omega
      have h2 : (-1075 : Int) + ((L + 2 : Nat) : Int) = t + 1 := by omega
      rw [if_pos hbig, hmin, ← Nat.add_assoc, decode_fields s (by omega) (by norm_num), if_neg (by omega),
        if_neg (by omega), h2, Nat.add_zero]
    · have hmin : min (L * 2 ^ 52 + n) (2047 * 2 ^ 52) = 2047 * 2 ^ 52 := by omega
      rw [if_neg hbig, hmin, hinf]

variable {n : ℤ} {m : Nat} {e : Int} {x : Float} {q : ℚ}

/-- The significand that is written for a number, before its carry. -/
theorem round_double (hm : 0 < m) (e : Int) :
    ∃ n : Nat, (n : ℤ) = nearestEven (m * 2 ^ e / 2 ^ target m e) ∧
      double.round m e = min ((target m e + 1074).toNat * 2 ^ 52 + n) (2047 * 2 ^ 52) := by
  have htiny : double.tiny = -1074 := by decide
  have hinf : double.infinity = 2047 * 2 ^ 52 := by decide
  have hfrac : double.fractionBits = 52 := rfl
  have hlast : max (e + m.log2 - (52 : Nat)) (-1074) = target m e := by
    unfold target
    omega
  unfold Format.round
  simp only [if_neg hm.ne', htiny, hinf, hfrac, hlast, sub_neg_eq_add]
  split_ifs with hle
  · refine ⟨_, ?_, rfl⟩
    have hvalue : (m : ℚ) * 2 ^ e / 2 ^ target m e = ((m * 2 ^ (e - target m e).toNat : ℤ) : ℚ) := by
      push_cast
      rw [div_eq_iff (place_pos _).ne', mul_assoc]
      congr 1
      rw [← zpow_natCast, ← place_add]
      congr 1
      omega
    rw [hvalue, nearestEven_intCast]
    push_cast
    rfl
  · refine ⟨_, ?_, rfl⟩
    rw [roundDiv_eq m (by positivity)]
    congr 1
    push_cast
    rw [div_eq_div_iff (by positivity) (place_pos _).ne', mul_assoc]
    congr 1
    rw [← zpow_natCast, ← place_add]
    congr 1
    omega

theorem datum_ofDatum_finite (s : Bool) (m : Nat) (e : Int) :
    datum (ofDatum (.finite s m e))
      = double.decode (s.toNat * 2 ^ 63 + double.round m e) := by
  have hsign : double.signUnit = 2 ^ 63 := by decide
  have hinf : double.infinity = 2047 * 2 ^ 52 := by decide
  have hround : double.round m e ≤ 2047 * 2 ^ 52 := by
    unfold Format.round
    simp only [hinf]
    split_ifs <;> omega
  have hencode : double.encode (.finite s m e) = s.toNat * 2 ^ 63 + double.round m e := by
    cases s <;> simp [encode, hsign]
  have hlt : s.toNat * 2 ^ 63 + double.round m e < 2 ^ 64 := by
    have := Bool.toNat_lt s
    omega
  unfold ofDatum
  rw [datum_ofBits, hencode, Nat.toUInt64_eq, UInt64.toNat_ofNat', Nat.mod_eq_of_lt hlt]

/-- Writing a datum rounds it once. -/
theorem isNearest_ofDatum (s : Bool) (m : Nat) (e : Int) :
    IsNearest (ofDatum (.finite s m e)) (scaled s m e) := by
  have hdatum := datum_ofDatum_finite s m e
  have hfinal : ∀ d : Datum, IsRounding d s (scaled false m e) →
      datum (ofDatum (.finite s m e)) = d.cut → IsNearest (ofDatum (.finite s m e)) (scaled s m e) := by
    intro d hround heq
    unfold IsNearest IsNumber exact
    rw [heq, scaled_eq_signed s m e]
    exact hround.exact_cut
  rcases Nat.eq_zero_or_pos m with rfl | hm
  · refine hfinal (.finite s 0 (-1074)) ⟨0, -1074, rfl, ⟨by norm_num, le_rfl, Or.inr rfl⟩, ?_⟩ ?_
    · simp
    · rw [hdatum, Format.round, if_pos rfl]
      cases s <;> decide
  · obtain ⟨n, hn, hround⟩ := round_double hm e
    have hplace := lastPlace_natCast_mul hm e
    have hv : (0 : ℚ) < m * 2 ^ e := mul_pos (by exact_mod_cast hm) (place_pos e)
    rw [← hplace] at hn
    obtain ⟨hle, hge, hr⟩ := isRounding_carried hv s hn
    have hscaled : scaled false m e = m * 2 ^ e := by simp [scaled]
    rw [hplace] at hge hr
    refine hfinal _ (by rw [hscaled]; exact hr) ?_
    rw [hdatum, hround]
    exact decode_carried s hle (le_max_right _ _) hge

/-- Writing a datum that binary64 has loses nothing. -/
theorem denotes_ofDatum {s : Bool} (hr : Representable (scaled s m e))
    (hlt : |scaled s m e| < limit) : Denotes (ofDatum (.finite s m e)) (scaled s m e) :=
  (isNearest_ofDatum s m e).denotes hr hlt

/-! ## 2. Integers and powers of two -/

theorem two_pow_lt_limit (he : e < 1024) : (2 : ℚ) ^ e < limit :=
  zpow_lt_zpow_right₀ (by norm_num) he

theorem abs_int_lt_limit (h : |n| ≤ 2 ^ 64) : |(n : ℚ)| < limit := by
  have h1 : |(n : ℚ)| ≤ 2 ^ (64 : ℤ) := by
    rw [← Int.cast_abs]
    exact_mod_cast h
  exact h1.trans_lt (two_pow_lt_limit (by norm_num))

theorem denotes_one : Denotes 1.0 1 := ⟨false, 2 ^ 52, -52, by rfl, by norm_num [scaled]⟩

theorem denotes_zero : Denotes 0.0 0 := ⟨false, 0, -1074, by rfl, by norm_num [scaled]⟩

theorem isNearest_ofNat (n : Nat) : IsNearest (Float.ofNat n) n := by
  unfold Float.ofNat
  change IsNearest (Float.ofScientific n false 0) n
  simp only [Float.ofScientific, Bool.false_eq_true, if_false]
  split_ifs with h
  · -- A short integer is converted exactly and multiplied by one.
    have hn : ((n.toUInt64.toNat : ℤ) : ℚ) = n := by
      rw [Nat.toUInt64_eq, UInt64.toNat_ofNat', Nat.mod_eq_of_lt (by omega)]
      norm_cast
    have hnear : IsNearest n.toUInt64.toFloat n := by
      have := (rounds_normalize n.toUInt64.toNat 0 .positive).pack
      rwa [zpow_zero, mul_one, hn] at this
    have habs : |(n : ℤ)| ≤ 2 ^ 53 := by
      rw [abs_of_nonneg (by omega)]
      omega
    have hden : Denotes n.toUInt64.toFloat n := by
      refine hnear.denotes ?_ ?_
      · exact_mod_cast representable_int habs
      · exact_mod_cast abs_int_lt_limit (n := (n : ℤ)) (by omega)
    have hone : Denotes (Float.ofBits 0x3FF0000000000000) 1 :=
      ⟨false, 2 ^ 52, -52, by rfl, by norm_num [scaled]⟩
    have := hden.mul hone
    rwa [mul_one] at this
  · by_cases hn : n = 0
    · exact absurd ⟨by omega, by omega⟩ h
    · have hpos : 0 < n := Nat.pos_of_ne_zero hn
      have hlog : (n <<< 53 * 1).log2 = n.log2 + 53 := by rw [mul_one, log2_shiftLeft hn]
      have hround := isRounding_roundWithAccuracy (.positive * .positive) (describes_exact (n <<< 53 * 1))
        (e := -53 + 0) (by rw [mul_one, Nat.shiftLeft_eq]; positivity)
        (by unfold target; rw [hlog]; omega)
      have hvalue : ((n <<< 53 * 1 : Nat) : ℚ) * 2 ^ (-53 + 0 : ℤ) = n := by
        rw [mul_one, Nat.shiftLeft_eq]
        push_cast
        norm_num
        ring
      rw [hvalue] at hround
      have hrounds : Rounds (ofUnpacked (UnpackedFloat.ofScientific binary64 n 0)) n := by
        refine ⟨false, n, ?_, rfl⟩
        have hbits : mantissaBits binary64 = 53 := by decide
        have hlow : ¬ (0 : ℤ) < -((2 ^ 11 : ℤ) + n.log2) := by omega
        unfold UnpackedFloat.ofScientific
        rw [dif_neg hn, if_neg (by decide), if_neg hlow, if_pos le_rfl]
        simp only [UnpackedFloat.mul, hbits, Int.toNat_zero, pow_zero]
        exact hround
      exact hrounds.pack

/-- The number of an integer is the nearest one. -/
theorem isNearest_ofInt (n : ℤ) : IsNearest (ofInt n) n := by
  cases n with
  | ofNat n => exact_mod_cast isNearest_ofNat n
  | negSucc n =>
    have h := (isNearest_ofNat (n + 1)).neg
    have hcast : ((Int.negSucc n : ℤ) : ℚ) = -((n + 1 : Nat) : ℚ) := by
      rw [Int.negSucc_eq]
      push_cast
      ring
    rw [hcast]
    exact h

/-- Integers up to `2^53` are numbers exactly. -/
theorem denotes_ofInt (h : |n| ≤ 2 ^ 53) : Denotes (ofInt n) n :=
  (isNearest_ofInt n).denotes (representable_int h) (abs_int_lt_limit (by omega))

theorem Denotes.isFinite (h : Denotes x q) : x.isFinite = true := by
  obtain ⟨s, m, e, hx, -⟩ := denotes_unpack h
  show x.toModel.unpack.isFinite = true
  cases hu : x.toModel.unpack with
  | notANumber | infinity s => simp [ofUnpacked, hu] at hx
  | zero s | finite s m e hm => rfl

theorem isFinite_ofInt (h : |n| ≤ 2 ^ 63) : (ofInt n).isFinite = true := by
  obtain ⟨hnumber, hexact⟩ := isNearest_ofInt n
  have hn : |(n : ℚ)| ≤ 2 ^ (63 : ℤ) := by exact_mod_cast h
  have hplace : Representable (2 ^ (63 : ℤ)) := representable_place (by norm_num)
  have hrounded : |rounded n| ≤ 2 ^ (63 : ℤ) :=
    abs_le.2 ⟨le_rounded hplace.neg (abs_le.1 hn).1, rounded_le hplace (abs_le.1 hn).2⟩
  rw [nearest_of_lt (hrounded.trans_lt (two_pow_lt_limit (by norm_num)))] at hexact
  exact (denotes_of_exact hnumber hexact).isFinite

theorem denotes_twoPow (hlow : -1074 ≤ n) (hhigh : n < 1024) : Denotes (twoPow n) (2 ^ n) := by
  have hvalue : scaled false 1 n = 2 ^ n := by simp [scaled]
  unfold twoPow
  rw [if_neg (by omega), ← hvalue]
  apply denotes_ofDatum
  · rw [hvalue]
    exact representable_place hlow
  · rw [hvalue, abs_of_pos (place_pos n)]
    exact two_pow_lt_limit hhigh

/-! ## 3. Integer parts -/

/-- The integer part toward zero. -/
def towardZero (q : ℚ) : ℤ := if 0 ≤ q then ⌊q⌋ else ⌈q⌉

@[simp] theorem towardZero_intCast (n : ℤ) : towardZero n = n := by
  simp [towardZero]

theorem towardZero_neg (q : ℚ) : towardZero (-q) = -towardZero q := by
  unfold towardZero
  rcases lt_trichotomy q 0 with h | h | h
  · rw [if_pos (by linarith), if_neg (by linarith), Int.floor_neg]
  · simp [h]
  · rw [if_neg (by linarith), if_pos h.le, Int.ceil_neg]

theorem towardZero_signed (s : Bool) (q : ℚ) : (towardZero (signed s q) : ℚ) = signed s (towardZero q) := by
  cases s
  · rfl
  · simp [signed, towardZero_neg]

theorem towardZero_mono {p : ℚ} (h : p ≤ q) : towardZero p ≤ towardZero q := by
  unfold towardZero
  split_ifs with hp hq hq
  · exact Int.floor_mono h
  · exact absurd (hp.trans h) hq
  · have h1 : ⌈p⌉ ≤ 0 := Int.ceil_le.mpr (by push_cast; linarith)
    exact h1.trans (Int.floor_nonneg.mpr hq)
  · exact Int.ceil_mono h

theorem towardZero_natCast_div (m n : Nat) : towardZero ((m : ℚ) / n) = (m / n : Nat) := by
  unfold towardZero
  rw [if_pos (by positivity)]
  have h := Int.natCast_floor_eq_floor (a := (m : ℚ) / n) (by positivity)
  rw [← h, Nat.floor_div_eq_div]

/-- The integer part of a quotient of integers is their truncating quotient. -/
theorem towardZero_div (a b : ℤ) : towardZero ((a : ℚ) / b) = Int.tdiv a b := by
  obtain ⟨m, rfl | rfl⟩ := Int.eq_nat_or_neg a <;> obtain ⟨n, rfl | rfl⟩ := Int.eq_nat_or_neg b <;>
    simp only [Int.cast_neg, neg_div, div_neg, towardZero_neg, Int.neg_tdiv, Int.tdiv_neg, Int.cast_natCast,
      towardZero_natCast_div, Int.ofNat_tdiv]

theorem scaled_eq_div (m : Nat) (he : e < 0) : scaled false m e = (m : ℚ) / (2 ^ (-e).toNat : Nat) := by
  simp only [scaled, Bool.false_eq_true, if_false]
  push_cast
  rw [eq_div_iff (by positivity), mul_assoc, ← zpow_natCast, ← place_add]
  have : e + ((-e).toNat : Int) = 0 := by omega
  rw [this]
  simp

theorem towardZero_scaled (s : Bool) (m : Nat) (he : e < 0) :
    towardZero (scaled s m e) = if s then -((m / 2 ^ (-e).toNat : Nat) : ℤ) else (m / 2 ^ (-e).toNat : Nat) := by
  cases s with
  | false => rw [scaled_eq_div m he, towardZero_natCast_div, if_neg Bool.false_ne_true]
  | true => rw [scaled_true, towardZero_neg, scaled_eq_div m he, towardZero_natCast_div, if_pos rfl]

theorem ceil_natCast_div (m : Nat) {n : Nat} (hn : 0 < n) :
    ⌈(m : ℚ) / n⌉ = ((m / n + if m % n = 0 then 0 else 1 : Nat) : ℤ) := by
  rw [Rat.ceil_natCast_div_natCast, Int.neg_ediv, Int.sign_eq_one_of_pos (by exact_mod_cast hn)]
  by_cases h : m % n = 0 <;> simp [h, Int.natCast_dvd_natCast, Nat.dvd_iff_mod_eq_zero, add_comm]

theorem scaled_eq_int (s : Bool) (he : 0 ≤ e) :
    scaled s m e = (((if s then -(m : ℤ) else m) * 2 ^ e.toNat : ℤ) : ℚ) := by
  cases s <;> simp [scaled, place_toNat he]

/-- Integers that binary64 counts are written exactly. -/
theorem denotes_ofDatum_int (s : Bool) {k : Nat} (hk : k ≤ 2 ^ 53) :
    Denotes (ofDatum (.finite s k 0)) ((if s then -(k : ℤ) else k : ℤ) : ℚ) := by
  have hint : scaled s k 0 = ((if s then -(k : ℤ) else k : ℤ) : ℚ) := by simp [scaled_eq_int s le_rfl]
  have habs : |(if s then -(k : ℤ) else k)| ≤ 2 ^ 53 := by
    cases s <;> simp <;> exact_mod_cast hk
  rw [← hint]
  apply denotes_ofDatum
  · rw [hint]
    exact representable_int habs
  · rw [hint]
    exact abs_int_lt_limit (by omega)

/-- Dropping the fraction is exact. -/
theorem Denotes.trunc (h : Denotes x q) : Denotes (trunc x) (towardZero q) := by
  have hlimit := h.abs_lt_limit
  have hrep := h.representable
  obtain ⟨s, m, e, heq, rfl⟩ := h
  have hn := normal_datum x
  rw [heq] at hn
  unfold Number.trunc
  rw [heq]
  simp only [Datum.truncate]
  split_ifs with he
  · rw [towardZero_scaled s m he]
    exact denotes_ofDatum_int s ((Nat.div_le_self _ _).trans hn.1.le)
  · have he : 0 ≤ e := by omega
    rw [scaled_eq_int s he, towardZero_intCast, ← scaled_eq_int s he]
    exact denotes_ofDatum hrep hlimit

/-- The integer neighbours on both sides are exact. -/
theorem Denotes.toward (h : Denotes x q) (down : Bool) :
    Denotes (ofDatum ((datum x).toward down)) ((if down then ⌊q⌋ else ⌈q⌉ : ℤ) : ℚ) := by
  have hlimit := h.abs_lt_limit
  have hrep := h.representable
  obtain ⟨s, m, e, heq, rfl⟩ := h
  have hn := normal_datum x
  rw [heq] at hn ⊢
  by_cases he : e < 0
  · simp only [Datum.toward, if_pos he]
    have hunit : 2 ≤ 2 ^ (-e).toNat := Nat.le_self_pow (by omega) 2
    have hdiv := scaled_eq_div m he
    generalize 2 ^ (-e).toNat = unit at hunit hdiv ⊢
    set k := m / unit + if s == down && m % unit != 0 then 1 else 0 with hk
    have hsmall : k ≤ 2 ^ 53 := by
      have := Nat.div_le_div_left hunit (by norm_num) (a := m)
      have := hn.1
      split_ifs at hk <;> omega
    have hvalue : (if down then ⌊scaled s m e⌋ else ⌈scaled s m e⌉) = if s then -(k : ℤ) else k := by
      cases s <;> cases down <;> simp [hk, scaled_true, hdiv, Int.floor_neg, Int.ceil_neg,
        ceil_natCast_div m (n := unit) (by omega), Rat.floor_natCast_div_natCast]
    rw [hvalue]
    exact denotes_ofDatum_int s hsmall
  · simp only [Datum.toward, if_neg he]
    rw [scaled_eq_int s (not_lt.mp he), Int.floor_intCast, Int.ceil_intCast, ite_self, ← scaled_eq_int s (not_lt.mp he)]
    exact denotes_ofDatum hrep hlimit

theorem Denotes.floor (h : Denotes x q) : Denotes (floor x) ⌊q⌋ := h.toward true

theorem Denotes.ceil (h : Denotes x q) : Denotes (ceil x) ⌈q⌉ := h.toward false

/-! ## 4. Bounded integers -/

/-- The integer part of a finite number, moved into a range. -/
theorem Denotes.clampToInt (h : Denotes x q) (lo hi : ℤ) : clampToInt lo hi x = max lo (min hi (towardZero q)) := by
  obtain ⟨s, m, e, heq, rfl⟩ := h
  unfold Number.clampToInt
  rw [heq]
  simp only [Datum.truncate]
  split_ifs with he
  · simp only [towardZero_scaled s m he, Int.toNat_zero, pow_zero, mul_one]
  · have he : 0 ≤ e := by omega
    rw [scaled_eq_int s he, towardZero_intCast]
    cases s <;> simp

theorem clampToInt_infinite {s : Bool} (h : datum x = .infinite s) (lo hi : ℤ) :
    clampToInt lo hi x = if s then lo else hi := by
  unfold clampToInt
  rw [h]
  rfl

/-- A finite number passes the test for integers exactly if it is one. -/
theorem Denotes.isIntegral (h : Denotes x q) : isIntegral x = true ↔ (towardZero q : ℚ) = q := by
  obtain ⟨s, m, e, heq, rfl⟩ := h
  unfold Number.isIntegral
  rw [heq]
  by_cases he : e < 0
  · have hpos : 0 < 2 ^ (-e).toNat := by positivity
    simp only [Datum.isIntegral, he, decide_true, Bool.not_true, Bool.false_or, beq_iff_eq]
    rw [scaled_eq_signed s m e, towardZero_signed, signed_inj, scaled_eq_div m he, towardZero_natCast_div,
      ← Nat.dvd_iff_mod_eq_zero, eq_div_iff (by positivity)]
    constructor
    · rintro ⟨k, rfl⟩
      rw [Nat.mul_div_cancel_left k hpos]
      push_cast
      ring
    · intro hk
      have hk : m / 2 ^ (-e).toNat * 2 ^ (-e).toNat = m := by exact_mod_cast hk
      exact ⟨m / 2 ^ (-e).toNat, by rw [mul_comm]; exact hk.symm⟩
  · have he : 0 ≤ e := by omega
    rw [scaled_eq_int s he, towardZero_intCast]
    simp [Datum.isIntegral, he]

theorem exists_int_of_isIntegral (h : isIntegral x = true) : ∃ n : ℤ, Denotes x n := by
  cases hd : datum x with
  | finite s m e =>
    have hx : Denotes x (scaled s m e) := ⟨s, m, e, hd, rfl⟩
    refine ⟨towardZero (scaled s m e), ?_⟩
    rwa [hx.isIntegral.mp h]
  | infinite s =>
    rw [Number.isIntegral, hd] at h
    cases h
  | nan =>
    rw [Number.isIntegral, hd] at h
    cases h

end RangedIR.Number
