/-
RangedIR.Proofs.Interval.Word — intervals of machine words hold the words they stand for.

A word of a width is read as a signed integer; arithmetic on words is arithmetic on
integers followed by the balanced remainder `Int.bmod`.
-/
import RangedIR.Analysis.Transfer
import RangedIR.Proofs.Interval.Membership

namespace RangedIR

namespace Number

/-- An integer as an exact number. -/
def whole (n : ℤ) : Extended := (((n : ℚ) : WithTop ℚ) : Extended)

variable {m n : ℤ} {x y : Float} {p q : ℤ}

theorem whole_le : whole m ≤ whole n ↔ m ≤ n := by
  unfold whole
  rw [coe_le_coe]
  norm_cast

theorem whole_injective (h : whole m = whole n) : m = n :=
  le_antisymm (whole_le.mp h.le) (whole_le.mp h.ge)

/-- Ends below two integers have a sum below their sum, as far as binary64 counts. -/
theorem Below.add_whole (hx : Below x (whole p)) (hy : Below y (whole q)) (h : |p + q| ≤ 2 ^ 53) :
    Below (x + y) (whole (p + q)) := by
  have hcast : (p : ℚ) + q = ((p + q : ℤ) : ℚ) := (Int.cast_add p q).symm
  have hsum := hx.add hy (hcast ▸ representable_int h) (hcast ▸ abs_int_lt_limit (h.trans (by norm_num)))
  rwa [hcast] at hsum

theorem Above.add_whole (hx : Above x (whole p)) (hy : Above y (whole q)) (h : |p + q| ≤ 2 ^ 53) :
    Above (x + y) (whole (p + q)) := by
  have hcast : (p : ℚ) + q = ((p + q : ℤ) : ℚ) := (Int.cast_add p q).symm
  have hsum := hx.add hy (hcast ▸ representable_int h) (hcast ▸ abs_int_lt_limit (h.trans (by norm_num)))
  rwa [hcast] at hsum

end Number

open Number

variable {bits : Nat} {n : ℤ} {x : Float}

/-- Whether an interval holds an integer that is a binary64 number can be tested. -/
theorem Interval.holds_iff_contains {i : Bound} (hn : |n| ≤ 2 ^ 53) :
    i.Holds (whole n) ↔ i.contains (ofInt n) = true := by
  have h := denotes_ofInt hn
  unfold Holds contains Below Above
  rw [Bool.and_eq_true, le_true_iff, le_true_iff, h.exact]
  exact ⟨fun ⟨⟨hlo, h1⟩, hhi, h2⟩ => ⟨⟨hlo, h.isNumber, h1⟩, h.isNumber, hhi, h2⟩,
    fun ⟨⟨hlo, _, h1⟩, _, hhi, h2⟩ => ⟨⟨hlo, h1⟩, hhi, h2⟩⟩

/-! ## 1. Ends of the integer types -/

theorem denotes_unsignedMax (hb : bits ≤ 53) :
    Denotes (unsignedMax bits) ((2 ^ bits - 1 : ℤ) : ℚ) := by
  have hpow : (2 : ℤ) ^ bits ≤ 2 ^ 53 := pow_le_pow_right₀ (by norm_num) hb
  have hpos : (0 : ℤ) < 2 ^ bits := by positivity
  have htwo : Denotes (twoPow bits) (2 ^ (bits : ℤ)) := denotes_twoPow (by omega) (by omega)
  have hsub := htwo.sub denotes_one
  have hvalue : (2 : ℚ) ^ (bits : ℤ) - 1 = ((2 ^ bits - 1 : ℤ) : ℚ) := by push_cast; simp
  rw [hvalue] at hsub
  have habs : |(2 ^ bits - 1 : ℤ)| ≤ 2 ^ 53 := by
    rw [abs_of_nonneg (by omega)]
    omega
  exact hsub.denotes (representable_int habs) (abs_int_lt_limit (by omega))

theorem denotes_size (hb : bits ≤ 53) :
    Denotes (unsignedMax bits + 1.0) ((2 ^ bits : ℤ) : ℚ) := by
  have hpow : (2 : ℤ) ^ bits ≤ 2 ^ 53 := pow_le_pow_right₀ (by norm_num) hb
  have hpos : (0 : ℤ) < 2 ^ bits := by positivity
  have hadd := (denotes_unsignedMax hb).add denotes_one
  have hvalue : ((2 ^ bits - 1 : ℤ) : ℚ) + 1 = ((2 ^ bits : ℤ) : ℚ) := by push_cast; ring
  rw [hvalue] at hadd
  have habs : |(2 ^ bits : ℤ)| ≤ 2 ^ 53 := by rwa [abs_of_pos hpos]
  exact hadd.denotes (representable_int habs) (abs_int_lt_limit (by omega))

theorem denotes_signedMin (h0 : 1 ≤ bits) (hb : bits ≤ 1024) :
    Denotes (signedMin bits) ((-2 ^ (bits - 1) : ℤ) : ℚ) := by
  have htwo : Denotes (twoPow ((bits : ℤ) - 1)) (2 ^ ((bits : ℤ) - 1)) :=
    denotes_twoPow (by omega) (by omega)
  have hvalue : -(2 : ℚ) ^ ((bits : ℤ) - 1) = ((-2 ^ (bits - 1) : ℤ) : ℚ) := by
    push_cast
    rw [← zpow_natCast, Nat.cast_sub h0]
    rfl
  have := htwo.neg
  rwa [hvalue] at this

theorem denotes_signedMax (h0 : 1 ≤ bits) (hb : bits ≤ 54) :
    Denotes (signedMax bits) ((2 ^ (bits - 1) - 1 : ℤ) : ℚ) := by
  have h := @denotes_unsignedMax (bits - 1) (by omega)
  unfold unsignedMax at h
  unfold signedMax
  rwa [Nat.cast_sub h0] at h

/-! ## 2. Integers between two ends -/

/-- The integer part of a lower end does not pass an integer above it. -/
theorem toSigned64_le (h : Below x (whole n)) (hn : -2 ^ 63 ≤ n) :
    toSigned64 x ≤ n := by
  unfold toSigned64
  rcases h.cases with hinf | ⟨p, hp, hx⟩
  · rw [clampToInt_infinite hinf]
    exact hn
  · rw [hx.clampToInt]
    have : towardZero p ≤ n := by simpa using towardZero_mono hp
    omega

/-- The integer part of an upper end does not pass an integer below it. -/
theorem le_toSigned64 (h : Above x (whole n)) (hn : n < 2 ^ 63) :
    n ≤ toSigned64 x := by
  unfold toSigned64
  rcases h.cases with hinf | ⟨p, hp, hx⟩
  · rw [clampToInt_infinite hinf, if_neg Bool.false_ne_true]
    omega
  · rw [hx.clampToInt]
    have : n ≤ towardZero p := by simpa using towardZero_mono hp
    omega

theorem towardZero_sub_lt {p q : ℚ} (h : p ≤ q) :
    ((towardZero q - towardZero p : ℤ) : ℚ) < q - p + 1 := by
  unfold towardZero
  push_cast
  have h1 := Int.floor_le p
  have h2 := Int.lt_floor_add_one p
  have h3 := Int.floor_le q
  have h4 := Int.le_ceil p
  have h5 := Int.ceil_lt_add_one q
  split_ifs with hq hp hp
  · linarith
  · linarith
  · exact absurd (hp.trans h) hq
  · linarith

/-- The balanced remainders of integers between two that are less than a turn apart,
and whose remainders keep their order, lie between those remainders. -/
theorem bmod_between {m : Nat} (hm : 0 < m) {L n H : ℤ} (hL : L ≤ n) (hH : n ≤ H) (hturn : H - L < m)
    (hle : L.bmod m ≤ H.bmod m) : L.bmod m ≤ n.bmod m ∧ n.bmod m ≤ H.bmod m := by
  have eL := Int.bmod_add_bdiv L m
  have eH := Int.bmod_add_bdiv H m
  have en := Int.bmod_add_bdiv n m
  have lL := Int.le_bmod (x := L) hm
  have uL := Int.bmod_lt (x := L) hm
  have lH := Int.le_bmod (x := H) hm
  have uH := Int.bmod_lt (x := H) hm
  have ln := Int.le_bmod (x := n) hm
  have un := Int.bmod_lt (x := n) hm
  generalize L.bmod m = l at *
  generalize H.bmod m = h at *
  generalize n.bmod m = r at *
  generalize L.bdiv m = i at *
  generalize H.bdiv m = j at *
  generalize n.bdiv m = k at *
  have hm' : (0 : ℤ) < m := by exact_mod_cast hm
  have hsame : ∀ a b : ℤ, (m : ℤ) * (a - b) < m * 1 → m * (-1) < (m : ℤ) * (a - b) → a = b := by
    intro a b h1 h2
    have := lt_of_mul_lt_mul_left h1 hm'.le
    have := lt_of_mul_lt_mul_left h2 hm'.le
    omega
  -- All three integers lie in the same turn.
  have hhl : h - l < m := by omega
  have hij : j = i := hsame j i (by linarith) (by linarith)
  have hrl : r - l < m ∧ l - r < m ∧ r - h < m ∧ h - r < m := by omega
  subst hij
  have hki : k = j := hsame k j (by linarith) (by linarith)
  subst hki
  constructor <;> linarith

theorem abs_bmod_le (hb : bits ≤ 54) (n : ℤ) : |n.bmod (2 ^ bits)| ≤ 2 ^ 53 := by
  have hm : 0 < 2 ^ bits := by positivity
  have hpow : 2 ^ bits ≤ 2 ^ 54 := Nat.pow_le_pow_right (by norm_num) hb
  have h1 := Int.le_bmod (x := n) hm
  have h2 := Int.bmod_lt (x := n) hm
  rw [abs_le]
  constructor <;> omega

theorem denotes_wrapSigned (x : Float) (hb : bits ≤ 54) :
    Denotes (wrapSigned x bits) (((toSigned64 x).bmod (2 ^ bits) : ℤ) : ℚ) := by
  simp only [wrapSigned, if_neg (show ¬ 64 ≤ bits by omega)]
  exact denotes_ofInt (abs_bmod_le hb _)

namespace Transfer

/-! ## 3. Taking an interval into a type -/

/-- The integer parts of the ends are exactly one turn of the width apart. -/
def fullTurn (i : Bound) (bits : Nat) : Bool := toSigned64 i.hi - toSigned64 i.lo == 2 ^ bits

/-- An interval that does not fit a width is wrapped to a single word although its ends
are a full turn apart. -/
def slips (i : Bound) (bits : Nat) : Bool := !fits i bits && (wrapped? i bits).isSome && fullTurn i bits

variable {bits : Nat} {n : ℤ} {i : Bound}

/-- Ends whose difference rounds to less than a turn have integer parts at most a
turn apart. They can be a whole turn apart: the difference is rounded, the ends are not. -/
theorem toSigned64_sub_le (hb : bits ≤ 52) (h : i.Holds (whole n))
    (hspan : i.hi - i.lo ≤ unsignedMax bits) : toSigned64 i.hi - toSigned64 i.lo ≤ 2 ^ bits := by
  obtain ⟨hnum, -, hle⟩ := le_iff.mp hspan
  rw [(denotes_unsignedMax (by omega)).exact] at hle
  have hinfinite : datum (i.hi - i.lo) ≠ .infinite false := by
    intro hinf
    unfold Number.exact at hle
    rw [hinf] at hle
    exact absurd hle (not_le.mpr (WithBot.coe_lt_coe.mpr (WithTop.coe_lt_top _)))
  rw [sub_eq_add] at hinfinite
  rcases h.1.cases with hlo | ⟨p, hp, hlo⟩
  · -- An infinite lower end makes the difference infinite.
    have hneg : datum (-i.lo) = .infinite false := by rw [datum_neg, hlo]; rfl
    have hne : datum i.hi ≠ .infinite true := by
      rcases h.2.cases with h | ⟨_, _, _, _, _, h, _⟩ <;> simp [h]
    exact absurd (add_infinite hneg h.2.1 hne).2 hinfinite
  rcases h.2.cases with hhi | ⟨q, hq, hhi⟩
  · have hne : datum (-i.lo) ≠ .infinite true := by
      obtain ⟨_, _, _, heq, _⟩ := hlo.neg
      simp [heq]
    exact absurd (add_infinite hhi hlo.neg.isNumber hne).1 hinfinite
  have hdiff : q - p < ((2 ^ bits : ℤ) : ℚ) - 1 / 2 := by
    by_contra hge
    have hrep : Representable (((2 ^ bits : ℤ) : ℚ) - 1 / 2) := by
      refine ⟨2 ^ (bits + 1) - 1, -1, ?_, by norm_num, ?_⟩
      · have : (2 : ℤ) ^ (bits + 1) ≤ 2 ^ 53 := pow_le_pow_right₀ (by norm_num) (by omega)
        have : (0 : ℤ) < 2 ^ (bits + 1) := by positivity
        rw [abs_of_nonneg (by omega)]
        omega
      · push_cast
        rw [pow_succ]
        norm_num
        ring
    have hlimit : |((2 ^ bits : ℤ) : ℚ) - 1 / 2| < limit := by
      have h1 : (1 : ℚ) ≤ ((2 ^ bits : ℤ) : ℚ) := by exact_mod_cast Nat.one_le_two_pow
      have h2 := abs_int_lt_limit (n := 2 ^ bits) (by
        rw [abs_of_pos (by positivity)]
        exact pow_le_pow_right₀ (by norm_num) (by omega))
      rw [abs_of_nonneg (by linarith)] at h2 ⊢
      linarith
    have hnear := (hhi.sub hlo).2
    have hmono := nearest_mono (not_lt.mp hge)
    rw [nearest_of_representable hrep hlimit, ← hnear] at hmono
    have := coe_le_coe.mp (hmono.trans hle)
    push_cast at this
    linarith
  have hpq : p ≤ q := hp.trans hq
  have hlt := towardZero_sub_lt hpq
  have hint : towardZero q - towardZero p ≤ 2 ^ bits := by
    have : ((towardZero q - towardZero p : ℤ) : ℚ) < ((2 ^ bits + 1 : ℤ) : ℚ) := by
      push_cast at *
      linarith
    have : towardZero q - towardZero p < 2 ^ bits + 1 := by exact_mod_cast this
    omega
  have hpos : (0 : ℤ) < 2 ^ bits := by positivity
  have hmono := towardZero_mono hpq
  unfold toSigned64
  rw [hhi.clampToInt, hlo.clampToInt]
  omega

/-- Wrapping an interval into a width is sound unless its ends are a full turn apart. -/
theorem holds_wrapped {i w : Bound} (hb : bits ≤ 52) (h : i.Holds (whole n))
    (hn : |n| ≤ 2 ^ 53) (hturn : fullTurn i bits = false) (hw : wrapped? i bits = some w) :
    w.Holds (whole (n.bmod (2 ^ bits))) := by
  have hlow := @denotes_wrapSigned bits i.lo (by omega)
  have hhigh := @denotes_wrapSigned bits i.hi (by omega)
  unfold wrapped? at hw
  simp only [Bool.and_eq_true, decide_eq_true_eq] at hw
  split_ifs at hw with hcond
  cases hw
  obtain ⟨hspan, hle⟩ := hcond
  have hbetween : toSigned64 i.hi - toSigned64 i.lo < (2 ^ bits : Nat) := by
    have h1 := toSigned64_sub_le hb h hspan
    have h2 : toSigned64 i.hi - toSigned64 i.lo ≠ 2 ^ bits := by
      simpa [fullTurn] using hturn
    push_cast
    omega
  have hord : (toSigned64 i.lo).bmod (2 ^ bits) ≤ (toSigned64 i.hi).bmod (2 ^ bits) := by
    have := (le_iff.mp hle).2.2
    rw [hlow.exact, hhigh.exact, coe_le_coe] at this
    exact_mod_cast this
  rw [abs_le] at hn
  obtain ⟨h1, h2⟩ := bmod_between (by positivity) (toSigned64_le h.1 (by omega))
    (le_toSigned64 h.2 (by omega)) hbetween hord
  exact ⟨hlow.below_iff.mpr (whole_le.mpr h1), hhigh.above_iff.mpr (whole_le.mpr h2)⟩

/-- An integer in the signed range of a width is its own remainder. -/
theorem bmod_of_signed (h0 : 1 ≤ bits) (hlow : -2 ^ (bits - 1) ≤ n) (hhigh : n < 2 ^ (bits - 1)) :
    n.bmod (2 ^ bits) = n := by
  have hpow : 2 ^ bits = 2 * 2 ^ (bits - 1) := (mul_pow_sub_one (by omega) 2).symm
  apply Int.bmod_eq_of_le
  all_goals
    rw [hpow]
    push_cast
    omega

theorem holds_fits (h0 : 1 ≤ bits) (hb : bits ≤ 54)
    (h : i.Holds (whole n)) (hfits : fits i bits = true) : n.bmod (2 ^ bits) = n := by
  unfold fits at hfits
  simp only [Bool.and_eq_true, decide_eq_true_eq] at hfits
  obtain ⟨hlo, hhi⟩ := hfits
  have h1 := (le_iff.mp hlo).2.2.trans h.1.2
  have h2 := h.2.2.trans (le_iff.mp hhi).2.2
  rw [(denotes_signedMin h0 (by omega)).exact] at h1
  rw [(denotes_signedMax h0 hb).exact] at h2
  exact bmod_of_signed h0 (whole_le.mp h1) (Int.lt_of_le_sub_one (whole_le.mp h2))

/-- What is taken into an integer type fits or is wrapped. -/
theorem intoType_cases {op : BinaryOp} {i j : Bound} (hj : (intoType op (.int bits) i).value = some j) :
    (bits ≤ 1 ∨ fits i bits = true) ∧ j = i ∨ fits i bits = false ∧ wrapped? i bits = some j := by
  unfold intoType at hj
  simp only [Ty.intBits?, Bool.or_eq_true, decide_eq_true_eq] at hj
  split_ifs at hj with hfits
  · exact .inl ⟨hfits, (Option.some.inj hj).symm⟩
  · refine .inr ⟨Bool.eq_false_of_not_eq_true (not_or.mp hfits).2, ?_⟩
    cases hw : wrapped? i bits with
    | none =>
      rw [hw] at hj
      cases hj
    | some w =>
      rw [hw] at hj
      exact hj

/-- Taking a result into an integer type of more than one bit is sound unless it slips. -/
theorem holds_intoType {op : BinaryOp} (h0 : 2 ≤ bits) (hb : bits ≤ 52) {i j : Bound}
    (h : i.Holds (whole n)) (hn : |n| ≤ 2 ^ 53) (hslips : slips i bits = false)
    (hj : (intoType op (.int bits) i).value = some j) : j.Holds (whole (n.bmod (2 ^ bits))) := by
  obtain ⟨hfits, rfl⟩ | ⟨hfits, hw⟩ := intoType_cases hj
  · rwa [holds_fits (by omega) (by omega) h (hfits.resolve_left (by omega))]
  · exact holds_wrapped hb h hn (by simpa [slips, hfits, hw] using hslips) hw

/-! ## 4. The unsigned reading -/

/-- The unsigned reading of an interval of signed words holds their unsigned readings. -/
theorem holds_asUnsigned (h0 : 1 ≤ bits) (hb : bits ≤ 52)
    (h : i.Holds (whole n)) (hlow : -2 ^ (bits - 1) ≤ n) (hhigh : n < 2 ^ (bits - 1)) :
    (asUnsigned i bits).Holds (whole (n % 2 ^ bits)) := by
  have hmax := @denotes_unsignedMax bits (by omega)
  have hpow : (2 : ℤ) ^ bits = 2 * 2 ^ (bits - 1) := (mul_pow_sub_one (by omega) 2).symm
  have hsmall : (2 : ℤ) ^ bits ≤ 2 ^ 52 := pow_le_pow_right₀ (by norm_num) hb
  unfold asUnsigned
  simp only
  split_ifs with hnonneg hneg
  · have hzero : 0 ≤ n := by
      have := Interval.nonneg_of_isNonneg hnonneg h
      exact whole_le.mp (by simpa [whole] using this)
    rwa [Int.emod_eq_of_lt hzero (by omega)]
  · have hlt : n < 0 := by
      have := h.2.2.trans_lt (lt_iff.mp hneg).2.2
      rw [denotes_zero.exact] at this
      by_contra hge
      exact absurd (whole_le.mpr (not_lt.mp hge)) (not_le.mpr (by simpa [whole] using this))
    have hmod : n % 2 ^ bits = n + 2 ^ bits := by
      rw [← Int.add_emod_right, Int.emod_eq_of_lt (by omega) (by omega)]
    have hsize := @denotes_size bits (by omega)
    have habs : |n + 2 ^ bits| ≤ 2 ^ 53 := by
      rw [abs_of_nonneg (by omega)]
      omega
    rw [hmod]
    exact ⟨h.1.add_whole (hsize.below_iff.mpr le_rfl) habs, h.2.add_whole (hsize.above_iff.mpr le_rfl) habs⟩
  · have hmod0 := Int.emod_nonneg n (show (2 : ℤ) ^ bits ≠ 0 by positivity)
    have hmod1 := Int.emod_lt_of_pos n (show (0 : ℤ) < 2 ^ bits by positivity)
    constructor
    · refine denotes_zero.below_iff.mpr ?_
      have := whole_le.mpr hmod0
      simpa [whole] using this
    · exact hmax.above_iff.mpr (whole_le.mpr (by omega))

end Transfer

end RangedIR
