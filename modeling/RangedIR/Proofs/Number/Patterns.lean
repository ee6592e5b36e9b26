/-
RangedIR.Proofs.Number.Patterns — finite patterns are ordered as the numbers they denote.

Without its sign bit, the pattern of a finite number counts the numbers of its format from
zero up. So a number of the format has one pattern for each sign, and the numbers between
two binary64 numbers are the ones whose patterns lie between theirs.
-/
import RangedIR.Proofs.Number.Conversion

namespace RangedIR.Number

open Format

namespace Format

variable {f : Format} {a b n : Nat}

/-! ## 1. Patterns without sign -/

/-- How many places a pattern without sign is shifted above the smallest numbers. -/
def shift (f : Format) (a : Nat) : Nat := a / 2 ^ f.fractionBits - 1

/-- The significand of a pattern without sign, with its leading place. -/
def significand (f : Format) (a : Nat) : Nat := a - f.shift a * 2 ^ f.fractionBits

/-- What a pattern without sign denotes, in units of the smallest number. -/
def units (f : Format) (a : Nat) : Nat := f.significand a * 2 ^ f.shift a

theorem shift_mul_add_significand (f : Format) (a : Nat) :
    f.shift a * 2 ^ f.fractionBits + f.significand a = a := by
  have h : f.shift a * 2 ^ f.fractionBits ≤ a :=
    (Nat.mul_le_mul_right _ (Nat.sub_le _ _)).trans (Nat.div_mul_le_self _ _)
  unfold significand
  omega

theorem significand_lt (f : Format) (a : Nat) : f.significand a < 2 * 2 ^ f.fractionBits := by
  have hpos : 0 < 2 ^ f.fractionBits := by positivity
  have hlt : a < (f.shift a + 2) * 2 ^ f.fractionBits := by
    rw [← Nat.div_lt_iff_lt_mul hpos, shift]
    omega
  rw [Nat.add_mul] at hlt
  unfold significand
  omega

/-- Only the smallest numbers lack the leading place. -/
theorem le_significand (f : Format) (a : Nat) : 2 ^ f.fractionBits ≤ f.significand a ∨ f.shift a = 0 := by
  by_cases h : f.shift a = 0
  · exact Or.inr h
  · left
    have hle : (f.shift a + 1) * 2 ^ f.fractionBits ≤ a := by
      rw [← Nat.le_div_iff_mul_le (by positivity), shift] at *
      omega
    rw [Nat.add_mul] at hle
    unfold significand
    omega

theorem units_strictMono (f : Format) : StrictMono f.units := by
  intro a b hab
  have ha := f.shift_mul_add_significand a
  have hb := f.shift_mul_add_significand b
  have hshift : f.shift a ≤ f.shift b := Nat.sub_le_sub_right (Nat.div_le_div_right hab.le) 1
  rcases hshift.eq_or_lt with heq | hlt
  · have hsig : f.significand a < f.significand b := by
      rw [heq] at ha
      omega
    rw [units, units, heq]
    exact Nat.mul_lt_mul_of_pos_right hsig (by positivity)
  · have hlead : 2 ^ f.fractionBits ≤ f.significand b := (f.le_significand b).resolve_right (by omega)
    calc f.units a < 2 * 2 ^ f.fractionBits * 2 ^ f.shift a :=
          Nat.mul_lt_mul_of_pos_right (f.significand_lt a) (by positivity)
      _ = 2 ^ f.fractionBits * 2 ^ (f.shift a + 1) := by ring
      _ ≤ 2 ^ f.fractionBits * 2 ^ f.shift b := Nat.mul_le_mul_left _ (Nat.pow_le_pow_right (by omega) hlt)
      _ ≤ f.units b := Nat.mul_le_mul_right _ hlead

/-! ## 2. Reading -/

theorem signUnit_eq (f : Format) : f.signUnit = 2 ^ f.exponentBits * 2 ^ f.fractionBits := by
  rw [signUnit, Nat.pow_add, Nat.mul_comm]

theorem infinity_lt_signUnit (f : Format) : f.infinity < f.signUnit := by
  rw [signUnit_eq, infinity]
  exact Nat.mul_lt_mul_of_pos_right (Nat.sub_lt (by positivity) one_pos) (by positivity)

theorem fields_signed (s : Bool) (ha : a < f.signUnit) :
    ((s.toNat * f.signUnit + a) / f.signUnit % 2 == 1) = s ∧
    (s.toNat * f.signUnit + a) / 2 ^ f.fractionBits % 2 ^ f.exponentBits = a / 2 ^ f.fractionBits ∧
    (s.toNat * f.signUnit + a) % 2 ^ f.fractionBits = a % 2 ^ f.fractionBits := by
  have hfield : a / 2 ^ f.fractionBits < 2 ^ f.exponentBits := by
    rw [Nat.div_lt_iff_lt_mul (by positivity), ← signUnit_eq]
    exact ha
  refine ⟨?_, ?_, ?_⟩
  · rw [Nat.mul_comm, Nat.mul_add_div (by omega), Nat.div_eq_of_lt ha]
    cases s <;> rfl
  · rw [signUnit_eq, ← Nat.mul_assoc, Nat.mul_comm, Nat.mul_add_div (by positivity), Nat.mul_comm,
      Nat.mul_add_mod, Nat.mod_eq_of_lt hfield]
  · rw [signUnit_eq, ← Nat.mul_assoc, Nat.mul_comm, Nat.mul_add_mod]

/-- A pattern below the infinity denotes its significand at its place. -/
theorem decode_finite (s : Bool) (ha : a < f.infinity) :
    f.decode (s.toNat * f.signUnit + a) = .finite s (f.significand a) (f.tiny + f.shift a) := by
  obtain ⟨hsign, hfield, hfraction⟩ := fields_signed s (ha.trans f.infinity_lt_signUnit)
  have hlt : a / 2 ^ f.fractionBits < 2 ^ f.exponentBits - 1 := by
    rw [Nat.div_lt_iff_lt_mul (by positivity)]
    exact ha
  have hmod := Nat.div_add_mod a (2 ^ f.fractionBits)
  unfold decode
  simp only [hsign, hfield, hfraction]
  rw [if_neg hlt.ne]
  split_ifs with hzero
  · have hshift : f.shift a = 0 := by rw [shift, hzero]
    rw [hzero, Nat.mul_zero, Nat.zero_add] at hmod
    rw [significand, hshift, hmod]
    simp
  · have hshift : f.shift a + 1 = a / 2 ^ f.fractionBits := by
      unfold shift
      omega
    rw [← hshift, Nat.mul_comm, Nat.add_mul] at hmod
    have hsig : 2 ^ f.fractionBits + a % 2 ^ f.fractionBits = f.significand a := by
      unfold significand
      omega
    rw [hsig, ← hshift]
    congr 1
    push_cast
    ring

theorem decode_infinity (s : Bool) : f.decode (s.toNat * f.signUnit + f.infinity) = .infinite s := by
  obtain ⟨hsign, hfield, hfraction⟩ := fields_signed s f.infinity_lt_signUnit
  unfold decode
  simp only [hsign, hfield, hfraction]
  rw [infinity, Nat.mul_div_cancel _ (by positivity), Nat.mul_mod_left, if_pos rfl, if_pos rfl]

theorem decode_nan (s : Bool) (hlow : f.infinity < a) (hhigh : a < f.signUnit) :
    f.decode (s.toNat * f.signUnit + a) = .nan := by
  obtain ⟨hsign, hfield, hfraction⟩ := fields_signed s hhigh
  have hlead : a / 2 ^ f.fractionBits = 2 ^ f.exponentBits - 1 := by
    apply Nat.le_antisymm
    · have : a / 2 ^ f.fractionBits < 2 ^ f.exponentBits := by
        rw [Nat.div_lt_iff_lt_mul (by positivity), ← signUnit_eq]
        exact hhigh
      omega
    · rw [Nat.le_div_iff_mul_le (by positivity)]
      exact hlow.le
  have hmod := Nat.div_add_mod a (2 ^ f.fractionBits)
  rw [hlead, Nat.mul_comm] at hmod
  have hne : a % 2 ^ f.fractionBits ≠ 0 := by
    intro h
    rw [h] at hmod
    exact hlow.ne hmod
  unfold decode
  simp only [hsign, hfield, hfraction]
  rw [if_pos hlead, if_neg hne]

/-- Every pattern is a sign and a pattern without sign. -/
theorem exists_signed (hn : n < 2 * f.signUnit) :
    ∃ (s : Bool) (a : Nat), a < f.signUnit ∧ n = s.toNat * f.signUnit + a := by
  by_cases h : n < f.signUnit
  · exact ⟨false, n, h, by simp⟩
  · refine ⟨true, n - f.signUnit, by omega, ?_⟩
    rw [Bool.toNat_true]
    omega

/-! ## 3. Writing -/

theorem scaled_significand (f : Format) (s : Bool) (a : Nat) :
    scaled s (f.significand a) (f.tiny + f.shift a) = signed s (f.units a * 2 ^ f.tiny) := by
  rw [scaled_eq_signed]
  congr 1
  rw [scaled, units, place_add, zpow_natCast, if_neg Bool.false_ne_true]
  push_cast
  ring

/-- Rounding a number of the format finds its pattern. -/
theorem round_eq {m : Nat} {e : Int} (ha : a < f.infinity)
    (h : (m : ℚ) * 2 ^ e = f.significand a * 2 ^ (f.tiny + f.shift a)) : f.round m e = a := by
  have hparts := f.shift_mul_add_significand a
  have hsig := f.significand_lt a
  have hlead := f.le_significand a
  rcases Nat.eq_zero_or_pos m with rfl | hm
  · have hzero : f.significand a = 0 := by
      rw [Nat.cast_zero, zero_mul, eq_comm, mul_eq_zero] at h
      exact_mod_cast h.resolve_right (place_pos _).ne'
    have hpos : 0 < 2 ^ f.fractionBits := by positivity
    have hshift : f.shift a = 0 := hlead.resolve_left (by omega)
    rw [hzero, hshift, Nat.zero_mul] at hparts
    rw [round, if_pos rfl]
    exact hparts
  have hvalue : (0 : ℚ) < m * 2 ^ e := mul_pos (by exact_mod_cast hm) (place_pos e)
  have hsig0 : 0 < f.significand a := by
    rw [h] at hvalue
    exact_mod_cast (pos_iff_pos_of_mul_pos hvalue).mpr (place_pos _)
  -- The two forms of the number have the same leading place.
  have hlog : (m.log2 : Int) + e = (f.significand a).log2 + (f.tiny + f.shift a) := by
    rw [← log_mul_place e (Int.floor_natCast m) hm, h, log_mul_place _ (Int.floor_natCast _) hsig0]
  have hlast : max (e + m.log2 - f.fractionBits) f.tiny = f.tiny + f.shift a := by
    have hup : (f.significand a).log2 < f.fractionBits + 1 :=
      (Nat.log2_lt hsig0.ne').mpr (by rw [Nat.pow_succ]; omega)
    rcases hlead with hle | hzero
    · have := (Nat.le_log2 hsig0.ne').mpr hle
      omega
    · omega
  have hround : (if f.tiny + f.shift a ≤ e then m * 2 ^ (e - (f.tiny + f.shift a)).toNat
      else roundDiv m (2 ^ (f.tiny + f.shift a - e).toNat)) = f.significand a := by
    split_ifs with hle
    · have : (m : ℚ) * 2 ^ (e - (f.tiny + f.shift a)).toNat = f.significand a := by
        apply mul_right_cancel₀ (place_pos (f.tiny + f.shift a)).ne'
        rw [← h, mul_assoc, ← zpow_natCast, ← place_add]
        congr 2
        omega
      exact_mod_cast this
    · have hm' : m = f.significand a * 2 ^ (f.tiny + f.shift a - e).toNat := by
        have : (m : ℚ) = f.significand a * 2 ^ (f.tiny + f.shift a - e).toNat := by
          apply mul_right_cancel₀ (place_pos e).ne'
          rw [h, mul_assoc, ← zpow_natCast, ← place_add]
          congr 2
          omega
        exact_mod_cast this
      have hpos : 0 < 2 ^ (f.tiny + f.shift a - e).toNat := by positivity
      rw [hm', roundDiv, Nat.mul_mod_left, Nat.mul_div_cancel _ hpos]
      simp [hpos]
  unfold round
  simp only [if_neg hm.ne', hlast]
  rw [hround, show (f.tiny + f.shift a - f.tiny).toNat = f.shift a by omega, hparts]
  exact min_eq_left ha.le

end Format

/-- Two data are the same number with the same sign. -/
def Datum.Same : Datum → Datum → Prop
  | .finite s m e, .finite t n k => s = t ∧ scaled s m e = scaled t n k
  | .infinite s, .infinite t => s = t
  | _, _ => False

theorem Datum.same_self {d : Datum} (h : d ≠ .nan) : d.Same d := by
  cases d with
  | finite s m e => exact ⟨rfl, rfl⟩
  | infinite s => exact rfl
  | nan => exact absurd rfl h

/-- A number of the format is written as the pattern that denotes it. -/
theorem Format.encode_of_same {f : Format} {d : Datum} {n : Nat} (hn : n < 2 * f.signUnit)
    (h : d.Same (f.decode n)) : f.encode d = n := by
  have hsign : ∀ s : Bool, (if s = true then f.signUnit else 0) = s.toNat * f.signUnit := by
    intro s
    cases s <;> simp
  obtain ⟨s, a, ha, rfl⟩ := exists_signed hn
  rcases lt_trichotomy a f.infinity with hlt | rfl | hgt
  · rw [decode_finite s hlt] at h
    cases d with
    | infinite t | nan => exact h.elim
    | finite t m e =>
      obtain ⟨rfl, hvalue⟩ := h
      rw [encode, hsign, round_eq hlt]
      rw [scaled_eq_signed, scaled_eq_signed t (f.significand a)] at hvalue
      simpa [scaled] using (signed_inj t).mp hvalue
  · rw [decode_infinity] at h
    cases d with
    | finite t m e | nan => exact h.elim
    | infinite t =>
      obtain rfl : t = s := h
      rw [encode, hsign]
  · rw [decode_nan s hgt ha] at h
    cases d <;> exact h.elim

/-! ## 4. Binary64 numbers -/

variable {x : Float}

theorem isFinite_iff : x.isFinite = true ↔ ∃ s m e, datum x = .finite s m e := by
  constructor
  · intro h
    have hu : x.toModel.unpack.isFinite = true := h
    rw [datum_eq_ofUnpacked]
    cases hx : x.toModel.unpack with
    | notANumber | infinity s =>
      rw [hx] at hu
      cases hu
    | zero s | finite s m e hm => exact ⟨_, _, _, rfl⟩
  · rintro ⟨s, m, e, h⟩
    exact Denotes.isFinite ⟨s, m, e, h, rfl⟩

/-- A binary64 number has one pattern. -/
theorem toBits_of_same {n : Nat} (hn : n < 2 ^ 64) (h : (datum x).Same (double.decode n)) :
    x.toBits.toNat = n := by
  have hnumber : datum x ≠ .nan := by
    intro hnan
    rw [hnan] at h
    exact h.elim
  have hself : double.encode (datum x) = x.toBits.toNat :=
    encode_of_same x.toBits.toNat_lt (Datum.same_self hnumber)
  rw [← hself]
  exact encode_of_same hn h

/-- A datum that binary64 has is written as itself. -/
theorem same_ofDatum {s : Bool} {m : Nat} {e : Int} (hr : Representable (scaled s m e))
    (hlt : |scaled s m e| < limit) : (datum (ofDatum (.finite s m e))).Same (.finite s m e) := by
  have hround : double.round m e ≤ double.infinity := by
    unfold Format.round
    split_ifs
    · exact Nat.zero_le _
    · exact Nat.min_le_right _ _
  obtain ⟨t, n, k, hdatum, hvalue⟩ := denotes_ofDatum hr hlt
  have hdecode := datum_ofDatum_finite s m e
  rw [show 2 ^ 63 = double.signUnit from rfl] at hdecode
  rcases hround.eq_or_lt with heq | hlt
  · rw [heq, decode_infinity, hdatum] at hdecode
    cases hdecode
  · rw [decode_finite s hlt, hdatum] at hdecode
    injection hdecode with hsign
    rw [hdatum]
    exact ⟨hsign, hvalue⟩

theorem datum_ofDatum_infinite (s : Bool) : datum (ofDatum (.infinite s)) = .infinite s := by
  rw [ofDatum, datum_ofBits]
  cases s <;> decide

theorem datum_ofDatum_nan : datum (ofDatum .nan) = .nan := by
  rw [ofDatum, datum_ofBits]
  decide

/-- Whether the sign bit is set. -/
def signBit (x : Float) : Bool := decide (2 ^ 63 ≤ x.toBits.toNat)

/-- The pattern without its sign. -/
def absBits (x : Float) : Nat := x.toBits.toNat % 2 ^ 63

/-- How many numbers lie between zero and a finite number, itself counted; negative below zero. -/
def rank (x : Float) : ℤ := if signBit x then -absBits x else absBits x

theorem toBits_eq (x : Float) : x.toBits.toNat = (signBit x).toNat * 2 ^ 63 + absBits x := by
  have hlt := x.toBits.toNat_lt
  unfold signBit absBits
  by_cases h : 2 ^ 63 ≤ x.toBits.toNat
  · rw [decide_eq_true h, Bool.toNat_true]
    omega
  · rw [decide_eq_false h, Bool.toNat_false]
    omega

theorem datum_eq_decode (x : Float) :
    datum x = double.decode ((signBit x).toNat * double.signUnit + absBits x) := by
  rw [datum, toBits_eq]
  rfl

theorem absBits_lt_signUnit (x : Float) : absBits x < double.signUnit :=
  Nat.mod_lt _ (by norm_num)

theorem isFinite_iff_absBits : x.isFinite = true ↔ absBits x < double.infinity := by
  rw [isFinite_iff, datum_eq_decode]
  constructor
  · rintro ⟨s, m, e, h⟩
    by_contra hge
    rcases (not_lt.mp hge).eq_or_lt with heq | hgt
    · rw [← heq, decode_infinity] at h
      cases h
    · rw [decode_nan _ hgt (absBits_lt_signUnit x)] at h
      cases h
  · intro h
    exact ⟨_, _, _, decode_finite _ h⟩

/-- A finite number is its rank on the scale of the format. -/
theorem denotes_units (h : x.isFinite = true) :
    Denotes x (signed (signBit x) (double.units (absBits x) * 2 ^ double.tiny)) := by
  rw [← scaled_significand]
  refine ⟨_, _, _, ?_, rfl⟩
  rw [datum_eq_decode]
  exact decode_finite _ (isFinite_iff_absBits.mp h)

/-- Finite numbers are ordered by their ranks. -/
theorem exact_le_iff_rank {x y : Float} (hx : x.isFinite = true) (hy : y.isFinite = true) :
    exact x ≤ exact y ↔ rank x ≤ rank y := by
  have hscale : ∀ (s : Bool) (n : Nat), signed s (n * 2 ^ double.tiny)
      = ((if s then -n else n : ℤ) : ℚ) * 2 ^ double.tiny := by
    intro s n
    cases s <;> simp [signed]
  have hmono : ∀ a b, double.units a ≤ double.units b ↔ a ≤ b :=
    fun _ _ => double.units_strictMono.le_iff_le
  have hzero : double.units 0 = 0 := by decide
  rw [(denotes_units hx).exact, (denotes_units hy).exact, WithBot.coe_le_coe, WithTop.coe_le_coe, hscale, hscale,
    mul_le_mul_iff_left₀ (place_pos _), Int.cast_le, rank, rank]
  have hxy := hmono (absBits x) (absBits y)
  have hyx := hmono (absBits y) (absBits x)
  have hx0 := hmono (absBits x) 0
  have hy0 := hmono (absBits y) 0
  split_ifs <;> omega

/-- Each sign and each pattern without sign below the infinity belong to a finite number. -/
theorem exists_of_absBits (s : Bool) {a : Nat} (ha : a < double.infinity) :
    ∃ x : Float, x.isFinite = true ∧ signBit x = s ∧ absBits x = a := by
  have hinf : double.infinity < 2 ^ 63 := by decide
  have hs := Bool.toNat_lt s
  have hlt : s.toNat * 2 ^ 63 + a < 2 ^ 64 := by omega
  have hbits : (Float.ofBits (UInt64.ofNat (s.toNat * 2 ^ 63 + a))).toBits.toNat = s.toNat * 2 ^ 63 + a := by
    apply toBits_of_same hlt
    rw [datum_ofBits, UInt64.toNat_ofNat', Nat.mod_eq_of_lt hlt]
    apply Datum.same_self
    rw [show 2 ^ 63 = double.signUnit from rfl, decode_finite s ha]
    exact Datum.noConfusion
  have hsign : signBit (Float.ofBits (UInt64.ofNat (s.toNat * 2 ^ 63 + a))) = s := by
    rw [signBit, hbits]
    cases s with
    | false => simp; omega
    | true => simp
  have habs : absBits (Float.ofBits (UInt64.ofNat (s.toNat * 2 ^ 63 + a))) = a := by
    rw [absBits, hbits]
    omega
  exact ⟨_, isFinite_iff_absBits.mpr (by rwa [habs]), hsign, habs⟩

theorem absBits_eq_natAbs (x : Float) : absBits x = (rank x).natAbs := by
  unfold rank
  split_ifs <;> omega

theorem exists_of_rank {k : ℤ} (hk : k.natAbs < double.infinity) :
    ∃ x : Float, x.isFinite = true ∧ rank x = k := by
  obtain ⟨x, hx, hsign, hbits⟩ := exists_of_absBits (decide (k < 0)) hk
  refine ⟨x, hx, ?_⟩
  rw [rank, hsign, hbits]
  split_ifs with h <;> simp at h <;> omega

/-- Finite numbers of one value differ at most in the sign of a zero. -/
theorem eq_or_zero_of_exact_eq {x y : Float} (hx : x.isFinite = true) (hy : y.isFinite = true)
    (h : exact x = exact y) : x = y ∨ ((x == 0.0) = true ∧ (y == 0.0) = true) := by
  have hrank : rank x = rank y :=
    le_antisymm ((exact_le_iff_rank hx hy).1 h.le) ((exact_le_iff_rank hy hx).1 h.ge)
  have hbits : absBits x = absBits y := by rw [absBits_eq_natAbs, hrank, absBits_eq_natAbs]
  have hzero {z : Float} (hz : z.isFinite = true) (h0 : rank z = 0) : (z == 0.0) = true := by
    have h00 : (0.0 : Float).isFinite = true ∧ rank 0.0 = 0 := by decide
    refine beq_iff.2 ⟨(denotes_units hz).isNumber, (denotes_units h00.1).isNumber, le_antisymm ?_ ?_⟩
    · rw [exact_le_iff_rank hz h00.1, h0, h00.2]
    · rw [exact_le_iff_rank h00.1 hz, h0, h00.2]
  by_cases hsign : signBit x = signBit y
  · exact .inl (Float.toBits_inj.1 (UInt64.toNat_inj.1 (by rw [toBits_eq, toBits_eq, hsign, hbits])))
  · have h0 : rank x = 0 := by
      unfold rank at hrank ⊢
      cases hxs : signBit x <;> cases hys : signBit y <;> simp [hxs, hys] at hsign hrank ⊢ <;> omega
    exact .inr ⟨hzero hx h0, hzero hy (hrank ▸ h0)⟩

end RangedIR.Number
