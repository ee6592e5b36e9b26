/-
RangedIR.Proofs.Number.Arithmetic — arithmetic on patterns rounds the exact result once.

Arithmetic works on unpacked numbers and keeps two residual bits behind the
significand. The residual bits determine the nearest even integer, so that a sum,
difference, product or quotient of finite numbers is `nearest` of the exact result.
-/
import RangedIR.Proofs.Number.Exact

namespace RangedIR.Number

open Float.Model Float.Model.UnpackedFloat Format

/-! ## 1. Residual bits -/

section Residual

/-- The bits describe a number: its integer part, its first binary place, and
whether anything stands behind that place. -/
structure Describes (em : ExtendedMantissa) (x : ℚ) : Prop where
  floor : ⌊x⌋ = em.mantissa
  round : em.roundBit = true ↔ ⌊2 * x⌋ = 2 * ⌊x⌋ + 1
  sticky : em.stickyBit = true ↔ (⌊2 * x⌋ : ℚ) ≠ 2 * x

theorem floor_two_mul (x : ℚ) : ⌊2 * x⌋ = 2 * ⌊x⌋ ∨ ⌊2 * x⌋ = 2 * ⌊x⌋ + 1 := by
  have h1 : 2 * ⌊x⌋ ≤ ⌊2 * x⌋ := by
    rw [Int.le_floor]
    push_cast
    linarith [Int.floor_le x]
  have h2 : ⌊2 * x⌋ < 2 * ⌊x⌋ + 2 := by
    rw [Int.floor_lt]
    push_cast
    linarith [Int.lt_floor_add_one x]
  omega

variable {em : ExtendedMantissa} {x : ℚ}

/-- A fraction behind an integer part: the first place says whether it is at least a half,
and something else stands behind unless it is zero or a half. -/
theorem describes_add (em : ExtendedMantissa) {t : ℚ} (h0 : 0 ≤ t) (h1 : t < 1)
    (hround : em.roundBit = true ↔ 1 / 2 ≤ t) (hsticky : em.stickyBit = true ↔ t ≠ 0 ∧ t ≠ 1 / 2) :
    Describes em (em.mantissa + t) := by
  have hfloor : ⌊(em.mantissa : ℚ) + t⌋ = em.mantissa := by
    rw [Int.floor_eq_iff]
    push_cast
    constructor <;> linarith
  have hdouble : ⌊2 * ((em.mantissa : ℚ) + t)⌋ = 2 * em.mantissa + if 1 / 2 ≤ t then 1 else 0 := by
    rw [Int.floor_eq_iff]
    split_ifs <;> push_cast <;> constructor <;> linarith
  refine ⟨hfloor, ?_, ?_⟩
  · rw [hround, hfloor, hdouble]
    split_ifs with h
    · exact iff_of_true h rfl
    · exact iff_of_false h (by omega)
  · rw [hsticky, hdouble, ne_comm (b := 2 * _)]
    split_ifs with h <;> push_cast
    · exact ⟨fun hne heq => hne.2 (by linarith), fun hne => ⟨by linarith, fun heq => hne (by linarith)⟩⟩
    · exact ⟨fun hne heq => hne.1 (by linarith), fun hne => ⟨fun heq => hne (by linarith), by linarith⟩⟩

theorem mantissa_ofMantissaAndAccuracy (m : Nat) (acc : Accuracy) :
    (ExtendedMantissa.ofMantissaAndAccuracy m acc).mantissa = m := by
  rcases acc with _ | o
  · rfl
  · cases o <;> rfl

attribute [local simp] ExtendedMantissa.ofMantissaAndAccuracy

theorem describes_exact (m : Nat) : Describes (ExtendedMantissa.ofMantissaAndAccuracy m .exact) m := by
  simpa using describes_add (.ofMantissaAndAccuracy m .exact) le_rfl one_pos (by simp) (by simp)

/-- Dropping the last bit halves the number described. -/
theorem Describes.shiftRightOne (h : Describes em x) : Describes em.shiftRightOne (x / 2) := by
  have hdouble : 2 * (x / 2) = x := by ring
  have hhalf : ⌊x / 2⌋ = ⌊x⌋ / 2 := by
    have := Int.floor_div_natCast x 2
    exact_mod_cast this
  have hfloor := h.floor
  refine ⟨?_, ?_, ?_⟩
  · simp only [ExtendedMantissa.shiftRightOne, hhalf, hfloor]
    norm_cast
  · simp only [ExtendedMantissa.shiftRightOne, hdouble, hhalf, hfloor, bne_iff_ne]
    omega
  · -- Nothing stands behind the integer part exactly when both residual bits are clear.
    simp only [ExtendedMantissa.shiftRightOne, hdouble, Bool.or_eq_true, h.round, h.sticky]
    rcases floor_two_mul x with hx | hx
    · constructor
      · rintro (hr | hs) heq
        · omega
        · apply hs
          rw [hx, ← heq]
          push_cast
          simp
      · intro hne
        right
        intro heq
        rw [hx] at heq
        push_cast at heq
        exact hne (by linarith)
    · refine iff_of_true (Or.inl hx) ?_
      intro heq
      have : ⌊2 * x⌋ = 2 * ⌊x⌋ := by
        rw [← heq]
        norm_cast
      omega

theorem Describes.shiftRight (h : Describes em x) (n : Nat) : Describes (em >>> n) (x / 2 ^ n) := by
  induction n with
  | zero =>
    rw [pow_zero, div_one]
    exact h
  | succ n ih =>
    have := ih.shiftRightOne
    rw [div_div, ← pow_succ] at this
    exact this

/-- The residual bits say which integer is nearest. -/
theorem Describes.roundedMantissa (h : Describes em x) : (em.roundedMantissa : ℤ) = nearestEven x := by
  obtain ⟨m, r, s⟩ := em
  obtain ⟨hfloor, hround, hsticky⟩ := h
  simp only at hfloor hround hsticky
  have hfract : Int.fract x = x - m := by rw [Int.fract, hfloor]; simp
  have hle := Int.floor_le (2 * x)
  have hlt := Int.lt_floor_add_one (2 * x)
  unfold nearestEven
  rw [hfract, hfloor]
  cases r <;> cases s <;>
    simp only [Bool.false_eq_true, false_iff, true_iff, hfloor, not_not, ne_eq] at hround hsticky
  · have h2 : ⌊2 * x⌋ = 2 * m := by
      rcases floor_two_mul x with h | h <;> omega
    rw [h2] at hsticky
    push_cast at hsticky
    rw [if_pos (by linarith)]
    rfl
  · have h2 : ⌊2 * x⌋ = 2 * m := by
      rcases floor_two_mul x with h | h <;> omega
    rw [h2] at hlt
    push_cast at hlt
    rw [if_pos (by linarith)]
    rfl
  · rw [hround] at hsticky
    push_cast at hsticky
    rw [if_neg (by linarith), if_neg (by linarith)]
    simp [ExtendedMantissa.roundedMantissa, ExtendedMantissa.accuracy, Accuracy.roundToNearestEven]
  · have hne : ((2 * m + 1 : ℤ) : ℚ) < 2 * x := by
      rw [hround] at hle hsticky
      exact lt_of_le_of_ne hle hsticky
    push_cast at hne
    rw [if_neg (by linarith), if_pos (by linarith)]
    simp [ExtendedMantissa.roundedMantissa, ExtendedMantissa.accuracy, Accuracy.roundToNearestEven]

end Residual

/-! ## 2. Rounding an unpacked number -/

section Unpacked

/-- A datum is the value rounded to a significand of 53 bits, with the given sign. -/
def IsRounding (d : Datum) (negative : Bool) (v : ℚ) : Prop :=
  ∃ k f, d = .finite negative k f ∧ d.Normal ∧ scaled false k f = rounded v

/-- The exponent that a significand is shifted to. -/
def target (m : Nat) (e : Int) : Int := max (m.log2 + e - 52) (-1074)

theorem targetExponent_eq (m : Nat) (e : Int) :
    targetExponent binary64 (totalExponent m e) = target m e := by
  have hbits : mantissaBits binary64 = 53 := by decide
  have hmin : minExponent binary64 = -1074 := by decide
  unfold targetExponent totalExponent target
  rw [hbits, hmin]
  omega

variable {v y : ℚ} {m : Nat} {e : Int}

theorem log_mul_place (e : Int) (hfloor : ⌊y⌋ = m) (hm : 0 < m) : Int.log 2 |y * 2 ^ e| = m.log2 + e := by
  have hmy : (m : ℚ) ≤ y := by
    have := Int.floor_le y
    rw [hfloor] at this
    exact_mod_cast this
  have hym : y < m + 1 := by
    have := Int.lt_floor_add_one y
    rw [hfloor] at this
    exact_mod_cast this
  have hy : 0 < y := lt_of_lt_of_le (by exact_mod_cast hm) hmy
  have hpos : 0 < y * 2 ^ e := mul_pos hy (place_pos e)
  rw [abs_of_pos hpos]
  have hlow : (2 : ℚ) ^ ((m.log2 : Int) + e) ≤ y * 2 ^ e := by
    rw [place_add]
    apply mul_le_mul_of_nonneg_right _ (place_pos e).le
    have : ((2 ^ m.log2 : Nat) : ℚ) ≤ m := by exact_mod_cast Nat.log2_self_le hm.ne'
    push_cast at this
    rw [zpow_natCast]
    exact this.trans hmy
  have hhigh : y * 2 ^ e < (2 : ℚ) ^ ((m.log2 : Int) + e + 1) := by
    have hlt : m + 1 ≤ 2 ^ (m.log2 + 1) := Nat.lt_log2_self
    have : (m : ℚ) + 1 ≤ 2 ^ (m.log2 + 1) := by exact_mod_cast hlt
    have hsplit : (2 : ℚ) ^ ((m.log2 : Int) + e + 1) = 2 ^ (m.log2 + 1) * 2 ^ e := by
      rw [show (m.log2 : Int) + e + 1 = ((m.log2 + 1 : Nat) : Int) + e by push_cast; ring, place_add,
        zpow_natCast]
    rw [hsplit]
    exact mul_lt_mul_of_pos_right (hym.trans_le this) (place_pos e)
  have h1 := (Int.zpow_le_iff_le_log (b := 2) (by norm_num) hpos).mp hlow
  have h2 := (Int.lt_zpow_iff_log_lt (b := 2) (by norm_num) hpos).mp hhigh
  omega

theorem lastPlace_natCast_mul (hm : 0 < m) (e : Int) : lastPlace (m * 2 ^ e) = target m e := by
  unfold lastPlace target
  rw [log_mul_place e (Int.floor_natCast m) hm]

/-- A significand is shifted to the last place of the number it begins. -/
theorem lastPlace_eq_target (hfloor : ⌊y⌋ = m) (hy : 0 < y)
    (he : e ≤ target m e) : lastPlace (y * 2 ^ e) = target m e := by
  unfold lastPlace target at *
  rcases Nat.eq_zero_or_pos m with rfl | hm
  · -- Below one unit the exponent is already the smallest one.
    have hlog0 : Nat.log2 0 = 0 := by decide
    have hsmall : e ≤ -1074 := by omega
    have hpos : 0 < y * 2 ^ e := mul_pos hy (place_pos e)
    have hlt : y * 2 ^ e < 2 ^ e := by
      have : y < 1 := by
        have := Int.lt_floor_add_one y
        rw [hfloor] at this
        simpa using this
      nlinarith [place_pos e]
    have hlog : Int.log 2 |y * 2 ^ e| < e := by
      rw [abs_of_pos hpos]
      exact (Int.lt_zpow_iff_log_lt (by norm_num) hpos).mp hlt
    omega
  · rw [log_mul_place e hfloor hm]

theorem lt_place_lastPlace (hv : 0 < v) : v / 2 ^ lastPlace v < 2 ^ 53 := by
  rw [div_lt_iff₀ (place_pos _)]
  have h1 : v < 2 ^ (Int.log 2 |v| + 1) := by
    rw [abs_of_pos hv]
    exact Int.lt_zpow_succ_log_self (by norm_num) v
  have h2 : (2 : ℚ) ^ (Int.log 2 |v| + 1) ≤ 2 ^ (53 + lastPlace v) := by
    apply zpow_le_zpow_right₀ (by norm_num)
    unfold lastPlace
    omega
  calc v < 2 ^ (Int.log 2 |v| + 1) := h1
    _ ≤ 2 ^ (53 + lastPlace v) := h2
    _ = 2 ^ 53 * 2 ^ lastPlace v := by rw [place_add]; norm_num

theorem place_le_of_lt (hv : 0 < v) (h : -1074 < lastPlace v) : 2 ^ 52 ≤ v / 2 ^ lastPlace v := by
  rw [le_div_iff₀ (place_pos _)]
  have hlog : lastPlace v = Int.log 2 |v| - 52 := by
    unfold lastPlace at *
    omega
  calc (2 : ℚ) ^ 52 * 2 ^ lastPlace v = 2 ^ (52 + lastPlace v) := by rw [place_add]; norm_num
    _ = 2 ^ Int.log 2 |v| := by rw [hlog]; congr 1; omega
    _ ≤ v := by
      rw [abs_of_pos hv]
      exact Int.zpow_log_le_self (by norm_num) hv

/-- Shifting to the target exponent describes the value in units of its last place. -/
theorem describes_shiftToTargetExponent {acc : Accuracy}
    (h : Describes (ExtendedMantissa.ofMantissaAndAccuracy m acc) y) (he : e ≤ target m e) :
    Describes (shiftToTargetExponent binary64 m e acc).1 (y * 2 ^ e / 2 ^ target m e) ∧
      (shiftToTargetExponent binary64 m e acc).2 = target m e := by
  simp only [shiftToTargetExponent, shiftToExponent, targetExponent_eq]
  have hshift := h.shiftRight (target m e - e).toNat
  have hvalue : y / 2 ^ (target m e - e).toNat = y * 2 ^ e / 2 ^ target m e := by
    rw [div_eq_div_iff (by positivity) (by positivity), mul_assoc]
    congr 1
    rw [← zpow_natCast, ← place_add]
    congr 1
    omega
  rw [hvalue] at hshift
  exact ⟨hshift, by omega⟩

/-- The second shift only takes back a carry out of the significand. -/
theorem shiftToTargetExponent_exact {n : Nat} {t : Int} (hn : n ≤ 2 ^ 53) (ht : -1074 ≤ t) :
    (n < 2 ^ 53 ∧ (shiftToTargetExponent binary64 n t .exact).1.mantissa = n ∧
        (shiftToTargetExponent binary64 n t .exact).2 = t) ∨
      (n = 2 ^ 53 ∧ (shiftToTargetExponent binary64 n t .exact).1.mantissa = 2 ^ 52 ∧
        (shiftToTargetExponent binary64 n t .exact).2 = t + 1) := by
  simp only [shiftToTargetExponent, shiftToExponent, targetExponent_eq]
  rcases hn.lt_or_eq with hlt | rfl
  · left
    have hlog : n.log2 ≤ 52 := by
      rcases Nat.eq_zero_or_pos n with rfl | hpos
      · decide
      · have := (Nat.log2_lt hpos.ne').mpr hlt
        omega
    have hzero : (target n t - t).toNat = 0 := by
      unfold target
      omega
    rw [hzero]
    exact ⟨hlt, rfl, by omega⟩
  · right
    have hlog : Nat.log2 (2 ^ 53) = 53 := Nat.log2_two_pow
    have hone : (target (2 ^ 53) t - t).toNat = 1 := by
      unfold target
      rw [hlog]
      omega
    rw [hone]
    exact ⟨rfl, rfl, by omega⟩

/-- A significand of at most 53 bits, or one that has just carried into the next. -/
def carried (s : Bool) (n : Nat) (t : Int) : Datum :=
  if n < 2 ^ 53 then .finite s n t else .finite s (2 ^ 52) (t + 1)

/-- The nearest multiple of the last place, with its carry taken back, is a rounding. -/
theorem isRounding_carried (hv : 0 < v) (s : Bool) {n : Nat}
    (hn : (n : ℤ) = nearestEven (v / 2 ^ lastPlace v)) :
    n ≤ 2 ^ 53 ∧ (2 ^ 52 ≤ n ∨ lastPlace v = -1074) ∧ IsRounding (carried s n (lastPlace v)) s v := by
  have hrounded : (n : ℚ) * 2 ^ lastPlace v = rounded v := by
    unfold rounded
    rw [← hn]
    norm_cast
  have hle : n ≤ 2 ^ 53 := by
    have : nearestEven (v / 2 ^ lastPlace v) ≤ 2 ^ 53 :=
      nearestEven_le (by push_cast; exact (lt_place_lastPlace hv).le)
    omega
  have hmin : -1074 ≤ lastPlace v := le_max_right _ _
  have hge : 2 ^ 52 ≤ n ∨ lastPlace v = -1074 := by
    rcases hmin.lt_or_eq with hlt | heq
    · left
      have : (2 ^ 52 : ℤ) ≤ nearestEven (v / 2 ^ lastPlace v) :=
        le_nearestEven (by push_cast; exact place_le_of_lt hv hlt)
      omega
    · exact Or.inr heq.symm
  refine ⟨hle, hge, ?_⟩
  unfold carried
  split_ifs with hlt
  · refine ⟨n, lastPlace v, rfl, ⟨hlt, hmin, hge⟩, ?_⟩
    rw [← hrounded]
    simp [scaled]
  · have heq : n = 2 ^ 53 := by omega
    refine ⟨2 ^ 52, lastPlace v + 1, rfl, ⟨by norm_num, by omega, Or.inl le_rfl⟩, ?_⟩
    rw [← hrounded, heq]
    simp only [scaled, Bool.false_eq_true, if_false, place_add]
    push_cast
    ring

/-- Rounding with residual bits rounds the number that they describe. -/
theorem isRounding_roundWithAccuracy {acc : Accuracy} (sign : Sign)
    (h : Describes (ExtendedMantissa.ofMantissaAndAccuracy m acc) y) (hy : 0 < y)
    (he : e ≤ target m e) :
    IsRounding (ofUnpacked (roundWithAccuracy binary64 sign m e acc)) (isMinus sign)
      (y * 2 ^ e) := by
  have hfloor : ⌊y⌋ = m := by rw [h.floor, mantissa_ofMantissaAndAccuracy]
  have hv : 0 < y * 2 ^ e := mul_pos hy (place_pos e)
  have hplace := lastPlace_eq_target hfloor hy he
  obtain ⟨hdesc, hexp⟩ := describes_shiftToTargetExponent h he
  rw [← hplace] at hdesc hexp
  have hn := hdesc.roundedMantissa
  set v := y * 2 ^ e
  set n := (shiftToTargetExponent binary64 m e acc).1.roundedMantissa
  obtain ⟨hle, hge, hround⟩ := isRounding_carried hv (isMinus sign) hn
  have hmin : -1074 ≤ lastPlace v := le_max_right _ _
  have hdef : roundWithAccuracy binary64 sign m e acc =
      if h : (shiftToTargetExponent binary64 n (lastPlace v) .exact).1.mantissa = 0 then .zero sign
      else .finite sign (shiftToTargetExponent binary64 n (lastPlace v) .exact).1.mantissa
        (shiftToTargetExponent binary64 n (lastPlace v) .exact).2 (Nat.pos_of_ne_zero h) := by
    rw [← hexp]
    rfl
  have hcarried : ofUnpacked (roundWithAccuracy binary64 sign m e acc)
      = carried (isMinus sign) n (lastPlace v) := by
    rw [hdef]
    unfold carried
    rcases shiftToTargetExponent_exact hle hmin with ⟨hlt, h1, h2⟩ | ⟨heq, h1, h2⟩
    · rw [if_pos hlt]
      by_cases hz : n = 0
      · rw [dif_pos (h1.trans hz), hz, hge.resolve_left (by omega)]
        rfl
      · rw [dif_neg (h1.trans_ne hz)]
        simp only [ofUnpacked, h1, h2]
    · rw [if_neg (by omega), dif_neg (by rw [h1]; norm_num)]
      simp only [ofUnpacked, h1, h2]
  rw [hcarried]
  exact hround

/-- A number with a sign. -/
def signed (negative : Bool) (q : ℚ) : ℚ := if negative then -q else q

theorem scaled_eq_signed (s : Bool) (k : Nat) (f : Int) : scaled s k f = signed s (scaled false k f) := by
  cases s <;> simp [scaled, signed]

theorem signed_inj (s : Bool) {p q : ℚ} : signed s p = signed s q ↔ p = q := by
  cases s <;> simp [signed]

theorem rounded_signed (s : Bool) (q : ℚ) : rounded (signed s q) = signed s (rounded q) := by
  cases s
  · rfl
  · exact rounded_neg q

/-- Where the numbers of the format end. -/
def limit : ℚ := 2 ^ (1024 : ℤ)

theorem limit_pos : 0 < limit := place_pos 1024

/-- An exact number in the format: rounded, and an infinity if it is too large. -/
def nearest (q : ℚ) : Extended :=
  if limit ≤ rounded q then ((⊤ : WithTop ℚ) : Extended)
  else if rounded q ≤ -limit then ⊥
  else ((rounded q : ℚ) : WithTop ℚ)

theorem scaled_lt_limit {k : Nat} {f : Int} (hk : k < 2 ^ 53) (hf : f ≤ 971) :
    scaled false k f < limit := by
  simp only [scaled, Bool.false_eq_true, if_false]
  calc (k : ℚ) * 2 ^ f < 2 ^ 53 * 2 ^ f := by gcongr; exact_mod_cast hk
    _ ≤ 2 ^ 53 * 2 ^ (971 : ℤ) := by gcongr; norm_num
    _ = limit := by
        rw [limit, show (1024 : ℤ) = 53 + 971 by norm_num, place_add]
        rfl

theorem limit_le_scaled {k : Nat} {f : Int} (hk : 2 ^ 52 ≤ k) (hf : 972 ≤ f) :
    limit ≤ scaled false k f := by
  simp only [scaled, Bool.false_eq_true, if_false]
  calc limit = 2 ^ 52 * 2 ^ (972 : ℤ) := by
        rw [limit, show (1024 : ℤ) = 52 + 972 by norm_num, place_add]
        rfl
    _ ≤ 2 ^ 52 * 2 ^ f := by gcongr; norm_num
    _ ≤ k * 2 ^ f := by gcongr; exact_mod_cast hk

theorem scaled_nonneg (k : Nat) (f : Int) : 0 ≤ scaled false k f := by
  simp only [scaled, Bool.false_eq_true, if_false]
  exact mul_nonneg (Nat.cast_nonneg k) (place_pos f).le

theorem abs_scaled_lt_limit (s : Bool) {k : Nat} {f : Int} (hk : k < 2 ^ 53) (hf : f ≤ 971) :
    |scaled s k f| < limit := by
  have hlt := scaled_lt_limit hk hf
  have h0 := scaled_nonneg k f
  rw [scaled_eq_signed]
  cases s <;> simpa [signed, abs_of_nonneg h0] using hlt

theorem nearest_of_lt {q : ℚ} (h : |rounded q| < limit) : nearest q = ((rounded q : ℚ) : WithTop ℚ) := by
  obtain ⟨h1, h2⟩ := abs_lt.mp h
  unfold nearest
  rw [if_neg (by linarith), if_neg (by linarith)]

/-- A rounded value that is cut off at the largest exponent is the nearest number. -/
theorem IsRounding.exact_cut {d : Datum} {s : Bool} (h : IsRounding d s v) :
    d.cut ≠ .nan ∧ d.cut.exact = nearest (signed s v) := by
  obtain ⟨k, f, rfl, ⟨hk, hf, hnormal⟩, hvalue⟩ := h
  have hrounded : rounded (signed s v) = scaled s k f := by rw [rounded_signed, ← hvalue, scaled_eq_signed s]
  by_cases hbig : f ≤ 971
  · rw [nearest_of_lt (by rw [hrounded]; exact abs_scaled_lt_limit s hk hbig), hrounded]
    simp [Datum.cut, hbig, Datum.exact]
  · have hpos := limit_pos
    have hge := limit_le_scaled (hnormal.resolve_right (by omega)) (by omega : 972 ≤ f)
    unfold nearest
    rw [hrounded, scaled_eq_signed]
    simp only [Datum.cut, if_neg hbig]
    cases s
    · simp only [signed, Bool.false_eq_true, if_false]
      rw [if_pos hge]
      exact ⟨by simp, rfl⟩
    · simp only [signed, if_true]
      rw [if_neg (by linarith), if_pos (by linarith)]
      exact ⟨by simp, rfl⟩

theorem log2_shiftLeft (hm : m ≠ 0) (k : Nat) : (m <<< k).log2 = m.log2 + k := by
  induction k with
  | zero => rfl
  | succ k ih =>
    have hne : m <<< k ≠ 0 := by simp [Nat.shiftLeft_eq, hm]
    rw [Nat.shiftLeft_succ, Nat.log2_two_mul hne, ih]
    rfl

/-- A significand that is made longer first still begins the same number. -/
theorem isRounding_round (sign : Sign) (hm : 0 < m) (e : Int) :
    IsRounding (ofUnpacked (UnpackedFloat.round binary64 sign m e)) (isMinus sign) (m * 2 ^ e) := by
  simp only [UnpackedFloat.round, decreaseExponent, targetExponent_eq]
  set k := (e - target m e).toNat with hk
  have hpos : 0 < m <<< k := by
    rw [Nat.shiftLeft_eq]
    positivity
  have hlog : (m <<< k).log2 = m.log2 + k := log2_shiftLeft hm.ne' k
  have htarget : target (m <<< k) (e - k) = target m e := by
    unfold target
    rw [hlog]
    omega
  have hround := isRounding_roundWithAccuracy sign (describes_exact (m <<< k)) (e := e - k)
    (by exact_mod_cast hpos) (by rw [htarget]; omega)
  have hvalue : ((m <<< k : Nat) : ℚ) * 2 ^ (e - k) = m * 2 ^ e := by
    rw [Nat.shiftLeft_eq]
    push_cast
    rw [mul_assoc, ← zpow_natCast, ← place_add]
    congr 2
    omega
  rw [hvalue] at hround
  exact hround

end Unpacked

/-! ## 3. Arithmetic on unpacked numbers -/

section Operations

/-- A datum is finite with the given exact value. -/
def Datum.Denotes (d : Datum) (q : ℚ) : Prop := ∃ s m e, d = .finite s m e ∧ scaled s m e = q

/-- A datum is an exact number rounded. -/
def Rounds (d : Datum) (q : ℚ) : Prop := ∃ s v, IsRounding d s v ∧ signed s v = q

variable {m : Nat} {e : Int} {p q : ℚ} {u v : UnpackedFloat}

theorem representable_scaled (s : Bool) (hm : m < 2 ^ 53) (he : -1074 ≤ e) : Representable (scaled s m e) := by
  refine ⟨if s then -m else m, e, ?_, he, ?_⟩
  · cases s <;> simp <;> exact_mod_cast hm
  · cases s <;> simp [scaled]

theorem representable_of_normal {s : Bool} (h : (Datum.finite s m e).Normal) : Representable (scaled s m e) :=
  representable_scaled s h.1 h.2.1

/-- A number of the format is itself rounded. -/
theorem rounds_of_normal {d : Datum} (hn : d.Normal) (hd : d.Denotes q) : Rounds d q := by
  obtain ⟨s, m, e, rfl, rfl⟩ := hd
  refine ⟨s, scaled false m e, ⟨m, e, rfl, hn, ?_⟩, (scaled_eq_signed s m e).symm⟩
  exact (rounded_of_representable (representable_of_normal (s := false) hn)).symm

theorem rounds_zero (s : Bool) : Rounds (.finite s 0 (-1074)) 0 :=
  rounds_of_normal ⟨by norm_num, le_rfl, Or.inr rfl⟩ ⟨s, 0, -1074, rfl, scaled_zero _ _⟩

theorem rounds_normalize (n e : Int) (z : Sign) :
    Rounds (ofUnpacked (UnpackedFloat.normalize binary64 n e z)) (n * 2 ^ e) := by
  unfold UnpackedFloat.normalize
  rcases lt_trichotomy n 0 with h | h | h
  · rw [compare_lt_iff_lt.mpr h]
    refine ⟨true, _, isRounding_round .negative (by omega) e, ?_⟩
    have : (((-n).toNat : Nat) : ℚ) = -n := by
      have : (((-n).toNat : Nat) : ℤ) = -n := by omega
      exact_mod_cast this
    rw [this]
    simp [signed]
  · subst h
    rw [compare_eq_iff_eq.mpr rfl]
    rw [Int.cast_zero, zero_mul]
    exact rounds_zero (isMinus z)
  · rw [compare_gt_iff_gt.mpr h]
    refine ⟨false, _, isRounding_round .positive (by omega) e, ?_⟩
    have : ((n.toNat : Nat) : ℚ) = n := by
      have : ((n.toNat : Nat) : ℤ) = n := by omega
      exact_mod_cast this
    rw [this]
    simp [signed]

theorem apply_decreaseExponent (s : Sign) (m : Nat) {t : Int} (ht : t ≤ e) :
    ((s.apply ((decreaseExponent m e t).1 : Nat) : ℤ) : ℚ) * 2 ^ t = scaled (isMinus s) m e := by
  have hsplit : (2 : ℚ) ^ (e - t).toNat * 2 ^ t = 2 ^ e := by
    rw [← zpow_natCast, ← place_add]
    congr 1
    omega
  cases s <;>
    simp only [decreaseExponent, Sign.apply, isMinus, scaled, Nat.shiftLeft_eq, Bool.false_eq_true, if_true,
      if_false] <;>
    push_cast <;> rw [← hsplit] <;> ring

/-- An unpacked number with an exact value is a zero or has a significand. -/
theorem denotes_ofUnpacked (h : (ofUnpacked u).Denotes p) :
    (∃ s, u = .zero s ∧ p = 0) ∨ ∃ s m e hm, u = .finite s m e hm ∧ p = scaled (isMinus s) m e := by
  obtain ⟨_, _, _, heq, rfl⟩ := h
  cases u <;> cases heq
  · exact .inl ⟨_, rfl, scaled_zero _ _⟩
  · exact .inr ⟨_, _, _, _, rfl, rfl⟩

/-- A sum is the exact sum rounded. -/
theorem rounds_add (hu : (ofUnpacked u).Normal)
    (hv : (ofUnpacked v).Normal) (hp : (ofUnpacked u).Denotes p) (hq : (ofUnpacked v).Denotes q) :
    Rounds (ofUnpacked (UnpackedFloat.add binary64 u v)) (p + q) := by
  obtain ⟨s, rfl, rfl⟩ | ⟨s, m, e, hm, rfl, rfl⟩ := denotes_ofUnpacked hp
  · rw [zero_add]
    obtain ⟨t, rfl, rfl⟩ | ⟨t, n, f, hn, rfl, -⟩ := denotes_ofUnpacked hq
    · cases s <;> cases t <;> exact rounds_zero _
    · exact rounds_of_normal hv hq
  · obtain ⟨t, rfl, rfl⟩ | ⟨t, n, f, hn, rfl, rfl⟩ := denotes_ofUnpacked hq
    · rw [add_zero]
      exact rounds_of_normal hu hp
    · have h := rounds_normalize
        (s.apply (decreaseExponent m e (min e f)).1 + t.apply (decreaseExponent n f (min e f)).1)
        (min e f) .positive
      rw [Int.cast_add, add_mul, apply_decreaseExponent s m (min_le_left e f),
        apply_decreaseExponent t n (min_le_right e f)] at h
      exact h

/-- A difference is a sum with the sign of the second number changed. -/
theorem unpacked_sub_eq (u v : UnpackedFloat) :
    UnpackedFloat.sub binary64 u v = UnpackedFloat.add binary64 u v.neg := by
  have happly : ∀ (s : Sign) (n : Int), (-s).apply n = -s.apply n := by
    intro s n
    cases s
    · exact (Int.neg_neg n).symm
    · rfl
  cases u <;> cases v <;> try rfl
  rename_i s m e hm t n f hn
  simp only [UnpackedFloat.sub, UnpackedFloat.add, UnpackedFloat.neg, happly, Int.sub_eq_add_neg]

theorem isMinus_mul (s t : Sign) : isMinus (s * t) = (isMinus s ^^ isMinus t) := by
  cases s <;> cases t <;> rfl

theorem isMinus_div (s t : Sign) : isMinus (s / t) = (isMinus s ^^ isMinus t) := by
  cases s <;> cases t <;> rfl

theorem signed_mul (a b : Bool) (p q : ℚ) : signed (a ^^ b) (p * q) = signed a p * signed b q := by
  cases a <;> cases b <;> simp [signed]

theorem signed_div (a b : Bool) (p q : ℚ) : signed (a ^^ b) (p / q) = signed a p / signed b q := by
  cases a <;> cases b <;> simp [signed, neg_div, div_neg]

/-- The product of two significands is long enough to be rounded. -/
theorem le_target_mul {n : Nat} {f : Int} (hm : 0 < m) (hn : 0 < n)
    (he : 2 ^ 52 ≤ m ∨ e = -1074) (hf : 2 ^ 52 ≤ n ∨ f = -1074) : e + f ≤ target (m * n) (e + f) := by
  have hpos : m * n ≠ 0 := (Nat.mul_pos hm hn).ne'
  unfold target
  by_cases hlong : 2 ^ 52 ≤ m * n
  · have := (Nat.le_log2 hpos).mpr hlong
    omega
  · have h1 : ¬ 2 ^ 52 ≤ m := fun h => hlong (h.trans (Nat.le_mul_of_pos_right m hn))
    have h2 : ¬ 2 ^ 52 ≤ n := fun h => hlong (h.trans (Nat.le_mul_of_pos_left n hm))
    have := he.resolve_left h1
    have := hf.resolve_left h2
    omega

/-- A product is the exact product rounded. -/
theorem rounds_mul (hu : (ofUnpacked u).Normal)
    (hv : (ofUnpacked v).Normal) (hp : (ofUnpacked u).Denotes p) (hq : (ofUnpacked v).Denotes q) :
    Rounds (ofUnpacked (UnpackedFloat.mul binary64 u v)) (p * q) := by
  obtain ⟨s, rfl, rfl⟩ | ⟨s, m, e, hm, rfl, rfl⟩ := denotes_ofUnpacked hp
  · rw [zero_mul]
    obtain ⟨t, rfl, -⟩ | ⟨t, n, f, hn, rfl, -⟩ := denotes_ofUnpacked hq <;> exact rounds_zero _
  · obtain ⟨t, rfl, rfl⟩ | ⟨t, n, f, hn, rfl, rfl⟩ := denotes_ofUnpacked hq
    · rw [mul_zero]
      exact rounds_zero _
    · have h := isRounding_roundWithAccuracy (s * t) (describes_exact (m * n))
        (by exact_mod_cast Nat.mul_pos hm hn) (le_target_mul hm hn hu.2.2 hv.2.2)
      refine ⟨_, _, h, ?_⟩
      rw [isMinus_mul, scaled_eq_signed, scaled_eq_signed (isMinus t), ← signed_mul]
      congr 1
      simp only [scaled, Bool.false_eq_true, if_false, place_add]
      push_cast
      ring

/-- The accuracy of a quotient of natural numbers describes its fraction. -/
theorem describes_fraction (a : Nat) {b : Nat} (hb : 0 < b) :
    Describes (ExtendedMantissa.ofMantissaAndAccuracy (a / b) (accuracyOfFraction (a % b) b)) (a / b) := by
  set k := a / b
  set r := a % b with hr
  have hbq : (0 : ℚ) < b := by exact_mod_cast hb
  have hrb : (r : ℚ) < b := by exact_mod_cast Nat.mod_lt a hb
  have hr0 : (0 : ℚ) ≤ r := Nat.cast_nonneg r
  have hsplit : (a : ℚ) / b = k + r / b := by
    have h : (b : ℚ) * k + r = a := by exact_mod_cast Nat.div_add_mod a b
    field_simp
    linarith
  have hhalf : 1 / 2 ≤ (r : ℚ) / b ↔ b ≤ 2 * r := by
    rw [le_div_iff₀ hbq, ← Nat.cast_le (α := ℚ)]
    push_cast
    constructor <;> intro h <;> linarith
  have hexact : (r : ℚ) / b = 1 / 2 ↔ 2 * r = b := by
    rw [div_eq_iff hbq.ne', ← Nat.cast_inj (R := ℚ)]
    push_cast
    constructor <;> intro h <;> linarith
  have hzero : (r : ℚ) / b = 0 ↔ r = 0 := by simp [hb.ne']
  have h := describes_add (.ofMantissaAndAccuracy k (accuracyOfFraction r b)) (div_nonneg hr0 hbq.le)
    ((div_lt_one hbq).mpr hrb)
  rw [mantissa_ofMantissaAndAccuracy, hhalf, ne_eq, ne_eq, hexact, hzero, ← hsplit] at h
  unfold accuracyOfFraction ExtendedMantissa.ofMantissaAndAccuracy at *
  split_ifs at * with hz
  · exact h (by simp; omega) (by simp [hz])
  · rcases hcompare : compare (2 * r) b <;> rw [hcompare] at h
    all_goals
      simp only [Nat.compare_eq_lt, Nat.compare_eq_eq, Nat.compare_eq_gt] at hcompare
      exact h (by simp; omega) (by simp; omega)

/-- The quotient of two significands, the first made longer, is long enough to be rounded. -/
theorem le_target_div {n : Nat} (hm : 0 < m) (hn : 0 < n) {t : Int} {k : Nat}
    (h : -1074 < t → 53 ≤ (m.log2 : Int) + k - n.log2) : t ≤ target ((m <<< k) / n) t := by
  unfold target
  by_cases ht : -1074 < t
  · have hlong : 2 ^ 52 ≤ (m <<< k) / n := by
      rw [Nat.le_div_iff_mul_le hn, Nat.shiftLeft_eq]
      have h1 : 2 ^ m.log2 ≤ m := Nat.log2_self_le hm.ne'
      have h2 : n < 2 ^ (n.log2 + 1) := Nat.lt_log2_self
      have h3 : 52 + (n.log2 + 1) ≤ m.log2 + k := by have := h ht; omega
      calc 2 ^ 52 * n ≤ 2 ^ 52 * 2 ^ (n.log2 + 1) := Nat.mul_le_mul_left _ h2.le
        _ = 2 ^ (52 + (n.log2 + 1)) := (Nat.pow_add 2 52 _).symm
        _ ≤ 2 ^ (m.log2 + k) := Nat.pow_le_pow_right (by norm_num) h3
        _ = 2 ^ m.log2 * 2 ^ k := Nat.pow_add 2 _ _
        _ ≤ m * 2 ^ k := Nat.mul_le_mul_right _ h1
    have hne : (m <<< k) / n ≠ 0 := by omega
    have := (Nat.le_log2 hne).mpr hlong
    omega
  · omega

/-- A quotient is the exact quotient rounded. -/
theorem rounds_div (hp : (ofUnpacked u).Denotes p)
    (hq : (ofUnpacked v).Denotes q) (hne : q ≠ 0) :
    Rounds (ofUnpacked (UnpackedFloat.div binary64 u v)) (p / q) := by
  obtain ⟨t, rfl, rfl⟩ | ⟨t, n, f, hn, rfl, rfl⟩ := denotes_ofUnpacked hq
  · exact absurd rfl hne
  · obtain ⟨s, rfl, rfl⟩ | ⟨s, m, e, hm, rfl, rfl⟩ := denotes_ofUnpacked hp
    · rw [zero_div]
      exact rounds_zero _
    · have hbits : mantissaBits binary64 = 53 := by decide
      have hmin : minExponent binary64 = -1074 := by decide
      set T := min (e - f) (targetExponent binary64 (totalExponent m e - totalExponent n f))
        with hT
      set k := (e - f - T).toNat with hk
      have hlong : -1074 < T → 53 ≤ (m.log2 : Int) + k - n.log2 := by
        unfold targetExponent totalExponent at hT
        rw [hbits, hmin] at hT
        omega
      have hTle : T ≤ e - f := min_le_left _ _
      have hpos : (0 : ℚ) < (m <<< k : Nat) / n := by
        have : 0 < m <<< k := by rw [Nat.shiftLeft_eq]; positivity
        have h1 : (0 : ℚ) < (m <<< k : Nat) := by exact_mod_cast this
        have h2 : (0 : ℚ) < n := by exact_mod_cast hn
        exact div_pos h1 h2
      have h := isRounding_roundWithAccuracy (s / t) (describes_fraction (m <<< k) hn) hpos
        (le_target_div hm hn hlong)
      refine ⟨_, _, h, ?_⟩
      rw [isMinus_div, scaled_eq_signed, scaled_eq_signed (isMinus t), ← signed_div]
      congr 1
      have hshift : (2 : ℚ) ^ k * 2 ^ T * 2 ^ f = 2 ^ e := by
        rw [← zpow_natCast, ← place_add, ← place_add]
        congr 1
        omega
      have hn0 : (n : ℚ) ≠ 0 := by exact_mod_cast hn.ne'
      have hf0 := (place_pos f).ne'
      simp only [scaled, Bool.false_eq_true, if_false, Nat.shiftLeft_eq]
      push_cast
      rw [← hshift]
      field_simp

end Operations

/-! ## 4. Arithmetic on patterns -/

section Patterns

/-- A number is finite with the given exact value. -/
def Denotes (x : Float) (q : ℚ) : Prop := (datum x).Denotes q

/-- A number is the one nearest to an exact value, possibly an infinity. -/
def IsNearest (x : Float) (q : ℚ) : Prop := IsNumber x ∧ exact x = nearest q

variable {x y : Float} {p q : ℚ}

theorem Denotes.isNumber (h : Denotes x q) : IsNumber x := by
  obtain ⟨s, m, e, heq, -⟩ := h
  simp [IsNumber, heq]

theorem Denotes.exact (h : Denotes x q) : exact x = ((q : WithTop ℚ) : Extended) := by
  obtain ⟨s, m, e, heq, rfl⟩ := h
  simp only [Number.exact, heq, Datum.exact]

/-- A number is an infinity or has an exact value. -/
theorem IsNumber.cases (h : IsNumber x) : (∃ s, datum x = .infinite s) ∨ ∃ q, Denotes x q := by
  cases hx : datum x with
  | nan => exact absurd hx h
  | infinite s => exact .inl ⟨s, rfl⟩
  | finite s m e => exact .inr ⟨_, s, m, e, hx, rfl⟩

theorem exact_of_infinite {s : Bool} (h : datum x = .infinite s) : exact x = if s then ⊥ else ⊤ := by
  cases s <;> simp [exact, h, Datum.exact]

theorem denotes_of_exact (hx : IsNumber x) (h : Number.exact x = ((q : WithTop ℚ) : Extended)) : Denotes x q := by
  rcases hx.cases with ⟨s, hs⟩ | ⟨p, hp⟩
  · rw [exact_of_infinite hs] at h
    cases s
    · exact absurd (WithBot.coe_injective h) WithTop.top_ne_coe
    · exact absurd h WithBot.bot_ne_coe
  · cases WithTop.coe_injective (WithBot.coe_injective (hp.exact.symm.trans h))
    exact hp

theorem datum_of_exact (s : Bool) (hx : IsNumber x) (h : Number.exact x = if s then ⊥ else ⊤) :
    datum x = .infinite s := by
  rcases hx.cases with ⟨t, ht⟩ | ⟨p, hp⟩
  · rw [exact_of_infinite ht] at h
    cases s <;> cases t <;> first | exact ht | simp at h
  · rw [hp.exact] at h
    cases s
    · exact absurd (WithBot.coe_injective h) WithTop.coe_ne_top
    · exact absurd h WithBot.coe_ne_bot

theorem Denotes.representable (h : Denotes x q) : Representable q := by
  obtain ⟨s, m, e, heq, rfl⟩ := h
  have hn := normal_datum x
  rw [heq] at hn
  exact representable_of_normal hn

theorem Denotes.abs_lt_limit (h : Denotes x q) : |q| < limit := by
  obtain ⟨s, m, e, heq, rfl⟩ := h
  have hn := normal_datum x
  have hc := cut_datum x
  rw [heq] at hn hc
  have he : e ≤ 971 := by
    by_contra hbig
    simp [Datum.cut, hbig] at hc
  exact abs_scaled_lt_limit s hn.1 he

theorem nearest_of_representable (hr : Representable q) (h : |q| < limit) : nearest q = ((q : ℚ) : WithTop ℚ) := by
  have := rounded_of_representable hr
  rw [nearest_of_lt (by rwa [this]), this]

/-- The nearest number of an exact value that the format has is that value. -/
theorem IsNearest.denotes (h : IsNearest x q) (hr : Representable q) (hq : |q| < limit) : Denotes x q :=
  denotes_of_exact h.1 (h.2.trans (nearest_of_representable hr hq))

theorem Rounds.pack {u : UnpackedFloat} (h : Rounds (ofUnpacked u) q) :
    IsNearest (Float.ofModel (Float.Model.pack u)) q := by
  obtain ⟨s, v, hround, rfl⟩ := h
  have hn : (ofUnpacked u).Normal := by
    obtain ⟨k, f, heq, hn, -⟩ := hround
    exact hn
  unfold IsNearest IsNumber Number.exact
  rw [datum_pack hn]
  exact hround.exact_cut

theorem normal_unpack (x : Float) : (ofUnpacked x.toModel.unpack).Normal := by
  rw [← datum_eq_ofUnpacked]
  exact normal_datum x

theorem denotes_unpack (h : Denotes x q) : (ofUnpacked x.toModel.unpack).Denotes q := by
  rw [← datum_eq_ofUnpacked]
  exact h

theorem Denotes.add (hx : Denotes x p) (hy : Denotes y q) : IsNearest (x + y) (p + q) :=
  (rounds_add (normal_unpack x) (normal_unpack y) (denotes_unpack hx) (denotes_unpack hy)).pack

theorem Denotes.mul (hx : Denotes x p) (hy : Denotes y q) : IsNearest (x * y) (p * q) :=
  (rounds_mul (normal_unpack x) (normal_unpack y) (denotes_unpack hx) (denotes_unpack hy)).pack

theorem Denotes.div (hx : Denotes x p) (hy : Denotes y q) (hq : q ≠ 0) : IsNearest (x / y) (p / q) :=
  (rounds_div (denotes_unpack hx) (denotes_unpack hy) hq).pack

/-! ### Signs -/

/-- The datum with the other sign. -/
def Datum.negate : Datum → Datum
  | .finite s m e => .finite (!s) m e
  | .infinite s => .infinite (!s)
  | .nan => .nan

theorem ofUnpacked_neg (u : UnpackedFloat) : ofUnpacked u.neg = (ofUnpacked u).negate := by
  cases u with
  | notANumber => rfl
  | infinity s => cases s <;> rfl
  | zero s => cases s <;> rfl
  | finite s m e hm => cases s <;> rfl

theorem normal_negate (d : Datum) : d.negate.Normal ↔ d.Normal := by
  cases d <;> rfl

theorem cut_negate (d : Datum) : d.negate.cut = d.cut.negate := by
  cases d with
  | finite s m e => simp only [Datum.negate, Datum.cut]; split_ifs <;> rfl
  | infinite s => rfl
  | nan => rfl

/-- A change of the sign acts on the datum as it acts on the unpacked number. -/
theorem datum_pack_map {g : UnpackedFloat → UnpackedFloat} {f : Datum → Datum}
    (hg : ∀ u, ofUnpacked (g u) = f (ofUnpacked u)) (hn : ∀ d, (f d).Normal ↔ d.Normal)
    (hc : ∀ d, (f d).cut = f d.cut) (x : Float) :
    datum (Float.ofModel (Float.Model.pack (g x.toModel.unpack))) = f (datum x) := by
  have hnormal : (ofUnpacked (g x.toModel.unpack)).Normal := by
    rw [hg, hn]
    exact normal_unpack x
  rw [datum_pack hnormal, hg, hc, ← datum_eq_ofUnpacked, cut_datum]

theorem datum_neg (x : Float) : datum (-x) = (datum x).negate :=
  datum_pack_map ofUnpacked_neg normal_negate cut_negate x

/-- The datum without its sign. -/
def Datum.magnitude : Datum → Datum
  | .finite _ m e => .finite false m e
  | .infinite _ => .infinite false
  | .nan => .nan

theorem ofUnpacked_abs (u : UnpackedFloat) : ofUnpacked u.abs = (ofUnpacked u).magnitude := by
  cases u <;> rfl

theorem normal_magnitude (d : Datum) : d.magnitude.Normal ↔ d.Normal := by
  cases d <;> rfl

theorem cut_magnitude (d : Datum) : d.magnitude.cut = d.cut.magnitude := by
  cases d with
  | finite s m e => simp only [Datum.magnitude, Datum.cut]; split_ifs <;> rfl
  | infinite s => rfl
  | nan => rfl

theorem datum_abs (x : Float) : datum x.abs = (datum x).magnitude :=
  datum_pack_map ofUnpacked_abs normal_magnitude cut_magnitude x

/-- Unpacked numbers that denote the same datum are the same. -/
theorem ofUnpacked_injective {u v : UnpackedFloat} (h : ofUnpacked u = ofUnpacked v) : u = v := by
  have hsign : ∀ s t : Sign, isMinus s = isMinus t → s = t := by
    intro s t
    cases s <;> cases t <;> simp [isMinus]
  cases u <;> cases v <;> simp only [ofUnpacked, reduceCtorEq] at h <;> try rfl
  · rw [hsign _ _ (Datum.infinite.inj h)]
  · rw [hsign _ _ (Datum.finite.inj h).1]
  · rename_i hm
    exact absurd (Datum.finite.inj h).2.1 hm.ne
  · rename_i hm _
    exact absurd (Datum.finite.inj h).2.1 hm.ne'
  · obtain ⟨h1, h2, h3⟩ := Datum.finite.inj h
    cases hsign _ _ h1
    cases h2
    cases h3
    rfl

theorem sub_eq_add (x y : Float) : x - y = x + -y := by
  have hunpack : (-y).toModel.unpack = y.toModel.unpack.neg := by
    apply ofUnpacked_injective
    rw [← datum_eq_ofUnpacked, datum_neg, ofUnpacked_neg, datum_eq_ofUnpacked]
  change Float.ofModel (Float.Model.pack (UnpackedFloat.sub binary64 x.toModel.unpack y.toModel.unpack))
    = Float.ofModel (Float.Model.pack (UnpackedFloat.add binary64 x.toModel.unpack (-y).toModel.unpack))
  rw [unpacked_sub_eq, hunpack]

theorem Denotes.neg (h : Denotes x q) : Denotes (-x) (-q) := by
  obtain ⟨s, m, e, heq, rfl⟩ := h
  refine ⟨!s, m, e, ?_, ?_⟩
  · rw [datum_neg, heq]
    rfl
  · cases s <;> simp [scaled]

theorem Denotes.abs (h : Denotes x q) : Denotes x.abs |q| := by
  obtain ⟨s, m, e, heq, rfl⟩ := h
  refine ⟨false, m, e, ?_, ?_⟩
  · rw [datum_abs, heq]
    rfl
  · have h0 := scaled_nonneg m e
    cases s with
    | false => rw [abs_of_nonneg h0]
    | true => rw [scaled_true, abs_neg, abs_of_nonneg h0]

/-- The nearest number of the opposite value is the opposite number. -/
theorem IsNearest.neg (h : IsNearest x q) : IsNearest (-x) (-q) := by
  obtain ⟨hnum, hexact⟩ := h
  have hpos := limit_pos
  unfold nearest at hexact
  unfold IsNearest IsNumber Number.exact nearest
  rw [datum_neg, rounded_neg]
  split_ifs at hexact with h1 h2
  · rw [datum_of_exact false hnum hexact, if_neg (by linarith), if_pos (by linarith)]
    exact ⟨by simp [Datum.negate], rfl⟩
  · rw [datum_of_exact true hnum hexact, if_pos (by linarith)]
    exact ⟨by simp [Datum.negate], rfl⟩
  · have hd := (denotes_of_exact hnum hexact).neg
    rw [if_neg (by linarith), if_neg (by linarith), ← datum_neg]
    exact ⟨hd.isNumber, hd.exact⟩

theorem Denotes.sub (hx : Denotes x p) (hy : Denotes y q) : IsNearest (x - y) (p - q) := by
  rw [sub_eq_add, sub_eq_add_neg]
  exact hx.add hy.neg

end Patterns

end RangedIR.Number
