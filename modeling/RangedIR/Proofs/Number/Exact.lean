/-
RangedIR.Proofs.Number.Exact — the exact numbers that binary64 patterns denote.

A pattern is read by `datum`; arithmetic is computed on unpacked numbers, which are
packed into a pattern again. This module relates the two views:

  §1 exact values of data, with both infinities;
  §2 the pattern of a number from its three fields, and its datum;
  §3 packing: what the packed pattern of an unpacked number denotes;
  §4 the order of patterns is the order of the exact values.
-/
import RangedIR.Number.Double
import RangedIR.Proofs.Number.Rounding

namespace RangedIR.Number

open Float.Model Float.Model.UnpackedFloat Format

/-! ## 1. Exact values -/

/-- The rational numbers with two infinities. -/
abbrev Extended := WithBot (WithTop ℚ)

/-- The rational `± significand · 2^exponent`. -/
def scaled (negative : Bool) (significand : Nat) (exponent : Int) : ℚ :=
  (if negative then -(significand : ℚ) else significand) * 2 ^ exponent

/-- The exact value of a datum; zero for one that is no number. -/
def Datum.exact : Datum → Extended
  | .finite s m e => ((scaled s m e : ℚ) : WithTop ℚ)
  | .infinite true => ⊥
  | .infinite false => ((⊤ : WithTop ℚ) : Extended)
  | .nan => ((0 : ℚ) : WithTop ℚ)

/-- Whether a sign is the negative one. -/
def isMinus : Sign → Bool
  | .negative => true
  | .positive => false

/-- The datum of an unpacked number. -/
def ofUnpacked : UnpackedFloat → Datum
  | .notANumber => .nan
  | .infinity s => .infinite (isMinus s)
  | .zero s => .finite (isMinus s) 0 (-1074)
  | .finite s m e _ => .finite (isMinus s) m e

/-- The significand has at most 53 bits, and fewer only at the smallest exponent. -/
def Datum.Normal : Datum → Prop
  | .finite _ m e => m < 2 ^ 53 ∧ -1074 ≤ e ∧ (2 ^ 52 ≤ m ∨ e = -1074)
  | _ => True

/-- A datum whose exponent is too large becomes an infinity. -/
def Datum.cut : Datum → Datum
  | .finite s m e => if e ≤ 971 then .finite s m e else .infinite s
  | d => d

/-! ## 2. Fields of a pattern -/

theorem decode_double (n : Nat) :
    double.decode n =
      if n / 2 ^ 52 % 2 ^ 11 = 2047 then
        if n % 2 ^ 52 = 0 then .infinite (n / 2 ^ 63 % 2 == 1) else .nan
      else if n / 2 ^ 52 % 2 ^ 11 = 0 then .finite (n / 2 ^ 63 % 2 == 1) (n % 2 ^ 52) (-1074)
      else .finite (n / 2 ^ 63 % 2 == 1) (2 ^ 52 + n % 2 ^ 52) (-1075 + (n / 2 ^ 52 % 2 ^ 11 : Nat)) := by
  have htiny : double.tiny = -1074 := by decide
  have hfields : double.fractionBits = 52 ∧ double.exponentBits = 11 := ⟨rfl, rfl⟩
  have hsign : double.signUnit = 2 ^ 63 := by decide
  unfold decode
  simp only [hfields, hsign, htiny]
  norm_num
  congr 3
  ring

/-- The datum of a pattern given by its fields. -/
theorem decode_fields (s : Bool) {field fraction : Nat} (hfield : field < 2 ^ 11)
    (hfraction : fraction < 2 ^ 52) :
    double.decode (s.toNat * 2 ^ 63 + field * 2 ^ 52 + fraction) =
      if field = 2047 then (if fraction = 0 then .infinite s else .nan)
      else if field = 0 then .finite s fraction (-1074)
      else .finite s (2 ^ 52 + fraction) (-1075 + field) := by
  have h1 : (s.toNat * 2 ^ 63 + field * 2 ^ 52 + fraction) / 2 ^ 52 % 2 ^ 11 = field := by omega
  have h2 : (s.toNat * 2 ^ 63 + field * 2 ^ 52 + fraction) % 2 ^ 52 = fraction := by omega
  have h3 : ((s.toNat * 2 ^ 63 + field * 2 ^ 52 + fraction) / 2 ^ 63 % 2 == 1) = s := by
    have hs : s.toNat < 2 := Bool.toNat_lt s
    have : (s.toNat * 2 ^ 63 + field * 2 ^ 52 + fraction) / 2 ^ 63 % 2 = s.toNat := by omega
    rw [this]
    cases s <;> rfl
  rw [decode_double, h1, h2, h3]

theorem toNat_packComponents (s : Sign) (e : BitVec 11) (m : BitVec 52) :
    (packComponents binary64 s e m).toNat
      = (isMinus s).toNat * 2 ^ 63 + e.toNat * 2 ^ 52 + m.toNat := by
  have hs : s.toBitVec.toNat = (isMinus s).toNat := by cases s <;> rfl
  have he := e.isLt
  have hm := m.isLt
  unfold packComponents
  rw [BitVec.toNat_append, BitVec.toNat_append, ← Nat.shiftLeft_add_eq_or_of_lt he,
    ← Nat.shiftLeft_add_eq_or_of_lt hm, hs, Nat.shiftLeft_eq, Nat.shiftLeft_eq]
  ring

theorem toNat_unpackMantissa (b : BitVec 64) :
    (@unpackMantissa binary64 b).toNat = b.toNat % 2 ^ 52 := by
  simp [unpackMantissa]

theorem toNat_unpackExponent (b : BitVec 64) :
    (@unpackExponent binary64 b).toNat = b.toNat / 2 ^ 52 % 2 ^ 11 := by
  simp [unpackExponent, Nat.shiftRight_eq_div_pow]

theorem isMinus_unpackSign (b : BitVec 64) :
    isMinus (Sign.ofBitVec (@unpackSign binary64 b)) = (b.toNat / 2 ^ 63 % 2 == 1) := by
  have h : (@unpackSign binary64 b).toNat = b.toNat / 2 ^ 63 % 2 := by
    simp [unpackSign, Nat.shiftRight_eq_div_pow]
  have hz : @unpackSign binary64 b = 0#1 ↔ b.toNat / 2 ^ 63 % 2 = 0 := by
    rw [← h, ← BitVec.toNat_inj]
    rfl
  unfold Sign.ofBitVec
  by_cases hb : @unpackSign binary64 b = 0#1
  · rw [if_pos hb, hz.mp hb]
    rfl
  · have : b.toNat / 2 ^ 63 % 2 = 1 := by
      have := mt hz.mpr hb
      omega
    rw [if_neg hb, this]
    rfl

/-- Unpacking a pattern reads the same datum as its fields do. -/
theorem ofUnpacked_unpack (b : BitVec 64) :
    ofUnpacked (UnpackedFloat.unpack binary64 b) = double.decode b.toNat := by
  have hm := toNat_unpackMantissa b
  have he := toNat_unpackExponent b
  have hs := isMinus_unpackSign b
  have hinf : @unpackExponent binary64 b = -1#11 ↔ b.toNat / 2 ^ 52 % 2 ^ 11 = 2047 := by
    rw [← he, ← BitVec.toNat_inj]
    rfl
  have hzero : @unpackExponent binary64 b = 0#11 ↔ b.toNat / 2 ^ 52 % 2 ^ 11 = 0 := by
    rw [← he, ← BitVec.toNat_inj]
    rfl
  have hfrac : @unpackMantissa binary64 b = 0#52 ↔ b.toNat % 2 ^ 52 = 0 := by
    rw [← hm, ← BitVec.toNat_inj]
    rfl
  rw [decode_double]
  unfold UnpackedFloat.unpack
  simp only [hinf, hzero, hfrac]
  split_ifs with h1 h2 h3 h4
  · simp [ofUnpacked, hs]
  · rfl
  · simp only [ofUnpacked, hs, h4]
  · simp only [ofUnpacked, hs, hm, he, h3]
    rfl
  · have happ : (1#1 ++ @unpackMantissa binary64 b).toNat = 2 ^ 52 + b.toNat % 2 ^ 52 := by
      rw [BitVec.toNat_append, ← Nat.shiftLeft_add_eq_or_of_lt (BitVec.isLt _), hm]
      rfl
    have hbias : exponentBias binary64 = 1023 := by decide
    simp only [ofUnpacked, hs, happ, he, hbias]
    congr 1

theorem datum_eq_ofUnpacked (x : Float) : datum x = ofUnpacked x.toModel.unpack :=
  (ofUnpacked_unpack x.toModel.toBits.toBitVec).symm

theorem normal_decode (n : Nat) : (double.decode n).Normal := by
  rw [decode_double]
  split_ifs with h1 h2 h3
  · trivial
  · trivial
  · exact ⟨by omega, le_rfl, Or.inr rfl⟩
  · refine ⟨by omega, ?_, Or.inl (by omega)⟩
    have : 1 ≤ n / 2 ^ 52 % 2 ^ 11 := by omega
    push_cast
    omega

theorem normal_datum (x : Float) : (datum x).Normal := normal_decode _

/-- The exponent of a pattern is not too large for the format. -/
theorem cut_decode (n : Nat) : (double.decode n).cut = double.decode n := by
  rw [decode_double]
  split_ifs with h1 h2 h3
  · rfl
  · rfl
  · rfl
  · have : (-1075 : Int) + (n / 2 ^ 52 % 2 ^ 11 : Nat) ≤ 971 := by omega
    simp only [Datum.cut, if_pos this]

theorem cut_datum (x : Float) : (datum x).cut = datum x := cut_decode _

/-! ## 3. Packing -/

/-- A packed number denotes what was packed, or an infinity if that is too large. -/
theorem datum_pack {u : UnpackedFloat} (h : (ofUnpacked u).Normal) :
    datum (Float.ofModel (Float.Model.pack u)) = (ofUnpacked u).cut := by
  have hbits : datum (Float.ofModel (Float.Model.pack u))
      = double.decode (UnpackedFloat.pack binary64 u).toNat := rfl
  rw [hbits]
  cases u with
  | notANumber => decide
  | infinity s => cases s <;> decide
  | zero s => cases s <;> decide
  | finite s m e hm =>
    obtain ⟨hlt, hlo, hnormal⟩ := h
    have hbias : exponentBias binary64 = 1023 := by decide
    have hbits : mantissaBits binary64 = 53 := by decide
    have hlog : m.log2 + 1 = 53 ↔ 2 ^ 52 ≤ m := by
      have h1 := Nat.le_log2 (n := m) (k := 52) hm.ne'
      have h2 := (Nat.log2_lt (n := m) (k := 53) hm.ne').mpr hlt
      omega
    simp only [UnpackedFloat.pack, hbias, hbits, hlog, ofUnpacked, Datum.cut]
    by_cases hbig : e ≤ 971
    · have hfield : ¬ (2 ^ 11 ≤ (e + (1023 : Nat) + (52 : Nat)).toNat + 1) := by omega
      rw [if_neg hfield, if_pos hbig]
      by_cases hn : 2 ^ 52 ≤ m
      · rw [if_pos hn, toNat_packComponents, BitVec.toNat_ofNat, BitVec.toNat_ofNat,
          decode_fields _ (Nat.mod_lt _ (by norm_num)) (Nat.mod_lt _ (by norm_num))]
        have h1 : (e + (1023 : Nat) + (52 : Nat)).toNat % 2 ^ 11 = (e + 1075).toNat := by omega
        have h2 : m % 2 ^ 52 = m - 2 ^ 52 := by omega
        have h3 : 2 ^ 52 + (m - 2 ^ 52) = m := by omega
        have h4 : -1075 + ((e + 1075).toNat : Int) = e := by omega
        rw [h1, h2, if_neg (by omega), if_neg (by omega), h3, h4]
      · have he : e = -1074 := hnormal.resolve_left hn
        have hfields := @decode_fields (isMinus s) 0 m (by norm_num) (by omega)
        have h2 : (BitVec.ofNat 52 m).toNat = m := Nat.mod_eq_of_lt (by omega)
        rw [if_neg hn, toNat_packComponents, h2, he]
        exact hfields
    · have hfield : 2 ^ 11 ≤ (e + (1023 : Nat) + (52 : Nat)).toNat + 1 := by omega
      rw [if_pos hfield, if_neg hbig]
      cases s <;> decide

/-! ## 4. The order -/

/-- The exact value of a number; zero for what is no number. -/
def exact (x : Float) : Extended := (datum x).exact

/-- Numbers are ordered by their exponents first and their significands next. -/
theorem scaled_lt_of_exponent_lt {m n : Nat} {e f : Int} (hm : m < 2 ^ 53)
    (hn : 2 ^ 52 ≤ n ∨ f = -1074) (he : -1074 ≤ e) (h : e < f) : scaled false m e < scaled false n f := by
  have hn : 2 ^ 52 ≤ n := hn.resolve_right (by omega)
  simp only [scaled, Bool.false_eq_true, if_false]
  calc (m : ℚ) * 2 ^ e < 2 ^ 53 * 2 ^ e := by gcongr; exact_mod_cast hm
    _ = 2 ^ 52 * 2 ^ (e + 1) := by rw [place_add]; ring
    _ ≤ 2 ^ 52 * 2 ^ f := by
        gcongr
        · norm_num
        · exact h
    _ ≤ n * 2 ^ f := by gcongr; exact_mod_cast hn

theorem scaled_pos {m : Nat} (hm : 0 < m) (e : Int) : 0 < scaled false m e := by
  simp only [scaled, Bool.false_eq_true, if_false]
  exact mul_pos (by exact_mod_cast hm) (place_pos e)

theorem scaled_true (m : Nat) (e : Int) : scaled true m e = -scaled false m e := by
  simp [scaled]

@[simp] theorem scaled_zero (s : Bool) (e : Int) : scaled s 0 e = 0 := by
  cases s <;> simp [scaled]

/-- The order of exponents, then of significands, is the order of positive numbers. -/
theorem compare_scaled {m n : Nat} {e f : Int} (hm : m < 2 ^ 53 ∧ -1074 ≤ e ∧ (2 ^ 52 ≤ m ∨ e = -1074))
    (hn : n < 2 ^ 53 ∧ -1074 ≤ f ∧ (2 ^ 52 ≤ n ∨ f = -1074)) :
    (compare e f).then (compare m n) = cmp (scaled false m e) (scaled false n f) := by
  rcases lt_trichotomy e f with h | h | h
  · rw [compare_lt_iff_lt.mpr h, (cmp_eq_lt_iff _ _).mpr (scaled_lt_of_exponent_lt hm.1 hn.2.2 hm.2.1 h)]
    rfl
  · subst h
    rw [compare_eq_iff_eq.mpr rfl, Ordering.eq_then]
    simp only [scaled, Bool.false_eq_true, if_false]
    rw [cmp_mul_pos_right (place_pos e), Nat.strictMono_cast.cmp_map_eq, cmp_eq_compare]
  · rw [compare_gt_iff_gt.mpr h, (cmp_eq_gt_iff _ _).mpr (scaled_lt_of_exponent_lt hn.1 hm.2.2 hn.2.1 h)]
    rfl

theorem cmp_coe (p q : ℚ) : cmp ((p : WithTop ℚ) : Extended) ((q : WithTop ℚ) : Extended) = cmp p q :=
  (WithBot.coe_strictMono.comp WithTop.coe_strictMono).cmp_map_eq p q

/-- Comparing unpacked numbers compares their exact values. -/
theorem compare_ofUnpacked {u v : UnpackedFloat} (hu : (ofUnpacked u).Normal) (hv : (ofUnpacked v).Normal)
    (hun : ofUnpacked u ≠ .nan) (hvn : ofUnpacked v ≠ .nan) :
    u.compare v = some (cmp (ofUnpacked u).exact (ofUnpacked v).exact) := by
  have hlt : ∀ {a b : Extended}, a < b → some .lt = some (cmp a b) := fun h =>
    congrArg some ((cmp_eq_lt_iff _ _).mpr h).symm
  have hgt : ∀ {a b : Extended}, b < a → some .gt = some (cmp a b) := fun h =>
    congrArg some ((cmp_eq_gt_iff _ _).mpr h).symm
  have htop : ∀ q : ℚ, ((q : WithTop ℚ) : Extended) < ((⊤ : WithTop ℚ) : Extended) := fun q =>
    WithBot.coe_lt_coe.mpr (WithTop.coe_lt_top q)
  have hrat : ∀ {p q : ℚ}, p < q → ((p : WithTop ℚ) : Extended) < ((q : WithTop ℚ) : Extended) := fun h =>
    WithBot.coe_lt_coe.mpr (WithTop.coe_lt_coe.mpr h)
  cases u with
  | notANumber => exact absurd rfl hun
  | infinity s =>
    cases v with
    | notANumber => exact absurd rfl hvn
    | infinity t =>
      cases s <;> cases t
      · rw [cmp_self_eq_eq]; rfl
      · exact hlt (WithBot.bot_lt_coe _)
      · exact hgt (WithBot.bot_lt_coe _)
      · rw [cmp_self_eq_eq]; rfl
    | zero t | finite t n f hn =>
      cases s
      · exact hlt (WithBot.bot_lt_coe _)
      · exact hgt (htop _)
  | zero s =>
    cases v with
    | notANumber => exact absurd rfl hvn
    | infinity t =>
      cases t
      · exact hgt (WithBot.bot_lt_coe _)
      · exact hlt (htop _)
    | zero t =>
      simp only [ofUnpacked, Datum.exact, scaled_zero, cmp_self_eq_eq]
      rfl
    | finite t n f hn =>
      have hpos := scaled_pos hn f
      simp only [ofUnpacked, Datum.exact, scaled_zero]
      cases t
      · exact hgt (hrat (by rw [isMinus, scaled_true]; linarith))
      · exact hlt (hrat hpos)
  | finite s m e hm =>
    have hpos := scaled_pos hm e
    cases v with
    | notANumber => exact absurd rfl hvn
    | infinity t =>
      cases t <;> cases s
      · exact hgt (WithBot.bot_lt_coe _)
      · exact hgt (WithBot.bot_lt_coe _)
      · exact hlt (htop _)
      · exact hlt (htop _)
    | zero t =>
      simp only [ofUnpacked, Datum.exact, scaled_zero]
      cases s
      · exact hlt (hrat (by rw [isMinus, scaled_true]; linarith))
      · exact hgt (hrat hpos)
    | finite t n f hn =>
      have hpos' := scaled_pos hn f
      have hcmp := compare_scaled hu hv
      cases s <;> cases t <;> simp only [ofUnpacked, Datum.exact, isMinus, scaled_true]
      · rw [cmp_coe, StrictAnti.cmp_map_eq (f := (-·)) fun _ _ => neg_lt_neg]
        simp only [UnpackedFloat.compare, hcmp, cmp_swap]
      · exact hlt (hrat (by linarith))
      · exact hgt (hrat (by linarith))
      · rw [cmp_coe]
        simp only [UnpackedFloat.compare, hcmp]

/-- The pattern denotes a number, possibly an infinity. -/
def IsNumber (x : Float) : Prop := datum x ≠ .nan

instance (x : Float) : Decidable (IsNumber x) := inferInstanceAs (Decidable (_ ≠ _))

/-- Two patterns are compared if both denote numbers. -/
theorem compare_unpack (a b : Float) :
    a.toModel.unpack.compare b.toModel.unpack =
      if IsNumber a ∧ IsNumber b then some (cmp (exact a) (exact b)) else none := by
  have hna := normal_datum a
  have hnb := normal_datum b
  rw [datum_eq_ofUnpacked] at hna hnb
  split_ifs with h <;> simp only [IsNumber, exact, datum_eq_ofUnpacked] at h ⊢
  · exact compare_ofUnpacked hna hnb h.1 h.2
  · generalize a.toModel.unpack = u, b.toModel.unpack = v at h ⊢
    cases u <;> cases v <;> first | rfl | simp [ofUnpacked] at h

theorem le_iff {a b : Float} : a ≤ b ↔ IsNumber a ∧ IsNumber b ∧ exact a ≤ exact b := by
  have hdef : a ≤ b ↔ (a.toModel.unpack.compare b.toModel.unpack).any (·.isLE) = true := by
    change decide (a.toModel ≤ b.toModel) = true ↔ _
    rw [decide_eq_true_iff]
    rfl
  rw [hdef, compare_unpack, ← and_assoc, ← not_lt, ← cmp_eq_gt_iff]
  split_ifs with h
  · cases cmp (exact a) (exact b) <;> simp [h]
  · simp [h]

theorem lt_iff {a b : Float} : a < b ↔ IsNumber a ∧ IsNumber b ∧ exact a < exact b := by
  have hdef : a < b ↔ (a.toModel.unpack.compare b.toModel.unpack == some .lt) = true := by
    change decide (a.toModel < b.toModel) = true ↔ _
    rw [decide_eq_true_iff]
    rfl
  rw [hdef, compare_unpack, ← and_assoc, ← cmp_eq_lt_iff]
  split_ifs with h <;> simp [h]

theorem beq_iff {a b : Float} : (a == b) = true ↔ IsNumber a ∧ IsNumber b ∧ exact a = exact b := by
  have hdef : (a == b) = (a.toModel.unpack.compare b.toModel.unpack == some .eq) := rfl
  rw [hdef, compare_unpack, ← and_assoc, ← cmp_eq_eq_iff]
  split_ifs with h <;> simp [h]

end RangedIR.Number
