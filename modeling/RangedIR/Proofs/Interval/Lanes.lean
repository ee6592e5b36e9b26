/-
RangedIR.Proofs.Interval.Lanes — what the bits of a stored range tell when they are read back.

Only the two ends of a range are taken to their patterns. For a single number that is the
whole of it, and only a pattern of 64 bits read as an integer can need rounding. For a range
of binary64 numbers the words of the numbers in between follow the order of the patterns,
and a word that passes its largest value starts again from the smallest.
-/
import RangedIR.Interval.Lane
import RangedIR.Proofs.Interval.Enclosure
import RangedIR.Proofs.Interval.Word
import RangedIR.Proofs.Number.Patterns

namespace RangedIR

open Number

/-! ## 1. Patterns of a kind -/

namespace ScalarKind

variable {k : ScalarKind} {v : Float}

/-- The format of a kind of floating-point numbers. -/
def format? : ScalarKind → Option Format
  | f32 => some .single
  | f64 => some .double
  | _ => none

/-- A number is stored as a pattern: bits of an integer kind are a signed integer, and those
of a floating-point kind tell the two zeros apart. -/
def IsPattern (k : ScalarKind) (v : Float) (p : BitVec k.bits) : Prop :=
  match k.format? with
  | some f => (datum v).Same (f.decode p.toNat)
  | none => Denotes v p.toInt

/-- The bits denote a finite number. -/
def IsFinite (k : ScalarKind) (p : BitVec k.bits) : Prop :=
  ∀ f, k.format? = some f → ∃ s m e, f.decode p.toNat = .finite s m e

theorem pow_pred_le {w : Nat} (hw : w ≤ 64) : (2 : ℤ) ^ (w - 1) ≤ 2 ^ 63 :=
  pow_le_pow_right₀ (by norm_num) (by omega)

theorem abs_toInt_le {w : Nat} (hw : w ≤ 64) (p : BitVec w) : |p.toInt| ≤ 2 ^ (w - 1) ∧ |p.toInt| ≤ 2 ^ 63 := by
  have h : |p.toInt| ≤ 2 ^ (w - 1) := abs_le.mpr ⟨p.le_toInt, p.toInt_lt.le⟩
  exact ⟨h, h.trans (pow_pred_le hw)⟩

/-- An integer is stored as its residue. -/
theorem toSigned64_emod {w : Nat} (hw : w ≤ 64) {p : BitVec w} (h : Denotes v p.toInt) :
    (toSigned64 v % 2 ^ w).toNat = p.toNat := by
  have hlow := p.le_toInt
  have hhigh := p.toInt_lt
  have hpow := pow_pred_le hw
  have hsigned : toSigned64 v = p.toInt := by
    rw [toSigned64, h.clampToInt, towardZero_intCast]
    omega
  have hnat := congrArg BitVec.toNat (BitVec.ofInt_toInt (x := p))
  rw [BitVec.toNat_ofInt] at hnat
  rw [hsigned, ← hnat]
  push_cast
  rfl

theorem encode_eq {p : BitVec k.bits} (h : k.IsPattern v p) : k.encode v = p.toNat := by
  cases k with
  | f32 => exact Format.encode_of_same p.isLt h
  | f64 => exact toBits_of_same p.isLt h
  | i8 | i16 | i32 | i64 => exact toSigned64_emod (by decide) h

/-- The numbers of the 32-bit format are small enough for binary64. -/
theorem decode_single_bounds {n : Nat} {s : Bool} {m : Nat} {e : Int} (h : Format.single.decode n = .finite s m e) :
    m < 2 ^ 53 ∧ -1074 ≤ e ∧ e ≤ 971 := by
  have htiny : Format.single.tiny = -149 := by decide
  have hfields : Format.single.fractionBits = 23 ∧ Format.single.exponentBits = 8 := ⟨rfl, rfl⟩
  unfold Format.decode at h
  simp only [hfields, htiny] at h
  split_ifs at h with hlast hfraction hzero
  · injection h with _ hm he
    omega
  · injection h with _ hm he
    omega

/-- Bits of the 32-bit format that denote a finite number are read as that number. -/
theorem same_ofSinglePattern {n : Nat} {s : Bool} {m : Nat} {e : Int} (h : Format.single.decode n = .finite s m e) :
    (datum (ofSinglePattern n)).Same (.finite s m e) := by
  obtain ⟨hm, hlow, hhigh⟩ := decode_single_bounds h
  rw [ofSinglePattern, h]
  exact same_ofDatum (representable_scaled s hm hlow) (abs_scaled_lt_limit s hm hhigh)

theorem isFinite_ofSinglePattern {n : Nat} :
    (ofSinglePattern n).isFinite = true ↔ ∃ s m e, Format.single.decode n = .finite s m e := by
  rw [isFinite_iff]
  cases h : Format.single.decode n with
  | finite s m e =>
    have hsame := same_ofSinglePattern h
    cases hd : datum (ofSinglePattern n) with
    | finite t k f => exact ⟨fun _ => ⟨s, m, e, rfl⟩, fun _ => ⟨t, k, f, rfl⟩⟩
    | infinite t | nan =>
      rw [hd] at hsame
      exact hsame.elim
  | infinite s => simp [ofSinglePattern, h, datum_ofDatum_infinite]
  | nan => simp [ofSinglePattern, h, datum_ofDatum_nan]

theorem datum_ofPattern {n : Nat} (hn : n < 2 ^ 64) : datum (ofPattern n) = Format.double.decode n := by
  rw [ofPattern, datum_ofBits, Nat.toUInt64_eq, UInt64.toNat_ofNat', Nat.mod_eq_of_lt hn]

variable {w offset : Nat} {p : BitVec w}

/-- Bits of an integer kind are read as the binary64 number nearest to their integer. -/
theorem decode_integer (hk : k.format? = none) :
    k.decode (p.toNat >>> offset) = ofInt (p.extractLsb' offset k.bits).toInt := by
  rw [BitVec.toInt_extractLsb']
  cases k with
  | f32 | f64 => cases hk
  | i8 | i16 | i32 | i64 => rfl

theorem bits_le (k : ScalarKind) : k.bits ≤ 64 := by cases k <;> decide

/-- Bits that denote a finite number are read as that number, except those of 64-bit integers. -/
theorem isPattern_decode (hk : k ≠ .i64) (hfinite : k.IsFinite (p.extractLsb' offset k.bits)) :
    k.IsPattern (k.decode (p.toNat >>> offset)) (p.extractLsb' offset k.bits) := by
  cases k with
  | i64 => exact absurd rfl hk
  | f32 =>
    obtain ⟨s, m, e, h⟩ := hfinite _ rfl
    show (datum _).Same (Format.single.decode _)
    rw [h]
    rw [BitVec.extractLsb'_toNat] at h
    exact same_ofSinglePattern h
  | f64 =>
    obtain ⟨s, m, e, h⟩ := hfinite _ rfl
    show (datum _).Same (Format.double.decode _)
    rw [h]
    rw [BitVec.extractLsb'_toNat] at h
    rw [decode, datum_ofPattern (Nat.mod_lt _ (by norm_num)), show 2 ^ 64 = 2 ^ f64.bits from rfl, h]
    exact ⟨rfl, rfl⟩
  | i8 | i16 | i32 =>
    show Denotes _ _
    rw [decode_integer rfl]
    exact denotes_ofInt ((abs_toInt_le (bits_le _) _).1.trans (by decide))

/-- Bits are read as a finite number exactly if they denote one. -/
theorem isFinite_decode :
    (k.decode (p.toNat >>> offset)).isFinite = true ↔ k.IsFinite (p.extractLsb' offset k.bits) := by
  have hformat : ∀ {f : Format}, k.format? = some f → (k.IsFinite (p.extractLsb' offset k.bits) ↔
      ∃ s m e, f.decode ((p.toNat >>> offset) % 2 ^ k.bits) = .finite s m e) := by
    intro f hf
    rw [← BitVec.extractLsb'_toNat]
    refine ⟨fun h => h f hf, fun h g hg => ?_⟩
    rw [hf] at hg
    cases hg
    exact h
  cases k with
  | f32 =>
    rw [hformat rfl]
    exact isFinite_ofSinglePattern
  | f64 =>
    rw [hformat rfl, isFinite_iff, decode, datum_ofPattern (Nat.mod_lt _ (by norm_num))]
    rfl
  | i8 | i16 | i32 | i64 =>
    refine ⟨fun _ f hf => (by cases hf), fun _ => ?_⟩
    rw [decode_integer rfl]
    exact isFinite_ofInt (abs_toInt_le (bits_le _) _).2

end ScalarKind

/-! ## 2. A single number -/

namespace Interval

variable {src dst : ScalarKind} {offset : Nat} {v : Float}

theorem span_self (x : Float) : span x x = singleton x := by
  unfold span singleton Endpoint.lesser Endpoint.greater
  simp

/-- A lane that lies in the value is read where it lies. -/
theorem lane_of_fits (hfit : offset + dst.bits ≤ src.bits) (a : Bound) :
    let read (v : Float) : Float := dst.decode (src.encode v >>> offset)
    a.lane src offset dst =
      if (read a.lo).isFinite && (read a.hi).isFinite then some (span (read a.lo) (read a.hi)) else none := by
  have hdst : 0 < dst.bits := by cases dst <;> decide
  have hsrc : src.bits ≤ 64 := by cases src <;> decide
  have hend : wrap 32 (offset + dst.bits) = offset + dst.bits := wrap_of_lt (by omega)
  have hshift : wrap 6 offset = offset := wrap_of_lt (by omega)
  unfold lane
  rw [hend, hshift, if_neg (not_lt.mpr hfit)]

theorem lane_singleton_eq (hfit : offset + dst.bits ≤ src.bits) :
    (singleton v : Bound).lane src offset dst =
      if (dst.decode (src.encode v >>> offset)).isFinite then
        some (singleton (dst.decode (src.encode v >>> offset))) else none := by
  rw [lane_of_fits hfit]
  simp only [singleton, Bool.and_self, span_self]

/-- A single number that is stored and read back is read exactly: its bits denote no finite
number, or the lane is the single number they denote. Only the pattern of a binary64 number
read as an integer can lie between two numbers, and then the nearest one is read. -/
theorem lane_singleton {p : BitVec src.bits} (hfit : offset + dst.bits ≤ src.bits) (hp : src.IsPattern v p) :
    (¬ dst.IsFinite (p.extractLsb' offset dst.bits) → (singleton v : Bound).lane src offset dst = none) ∧
    (dst.IsFinite (p.extractLsb' offset dst.bits) → ∃ x,
      (singleton v : Bound).lane src offset dst = some (singleton x) ∧
      (dst.IsPattern x (p.extractLsb' offset dst.bits) ∨
        src = .f64 ∧ dst = .i64 ∧ ¬ Representable (p.extractLsb' offset dst.bits).toInt ∧
          IsNearest x (p.extractLsb' offset dst.bits).toInt)) := by
  rw [lane_singleton_eq hfit, ScalarKind.encode_eq hp]
  refine ⟨fun h => if_neg (mt ScalarKind.isFinite_decode.mp h), fun h => ?_⟩
  refine ⟨_, if_pos (ScalarKind.isFinite_decode.mpr h), ?_⟩
  by_cases hi64 : dst = .i64
  · subst hi64
    rw [ScalarKind.decode_integer rfl]
    have hnearest := isNearest_ofInt (p.extractLsb' offset 64).toInt
    have hlt := abs_int_lt_limit ((ScalarKind.abs_toInt_le le_rfl (p.extractLsb' offset 64)).2.trans (by norm_num))
    cases src with
    | i64 =>
      left
      obtain rfl : offset = 0 := by
        simp only [ScalarKind.bits] at hfit
        omega
      refine hnearest.denotes ?_ hlt
      have hwhole : (p.extractLsb' 0 64).toInt = p.toInt := by
        rw [BitVec.toInt_extractLsb', Nat.shiftRight_zero, BitVec.toInt_eq_toNat_bmod]
        rfl
      rw [hwhole]
      exact Denotes.representable hp
    | f64 =>
      by_cases hr : Representable (p.extractLsb' offset 64).toInt
      · exact Or.inl (hnearest.denotes hr hlt)
      · exact Or.inr ⟨rfl, rfl, hr, hnearest⟩
    | i8 | i16 | i32 | f32 =>
      simp only [ScalarKind.bits] at hfit
      omega
  · exact Or.inl (ScalarKind.isPattern_decode hi64 h)

/-- The number one, stored in 64 bits, has its exponent in the high word. -/
theorem lane_singleton_one : ScalarKind.f64.IsPattern 1.0 0x3ff0000000000000#64 ∧
    ∃ x, (singleton 1.0 : Bound).lane .f64 32 .i32 = some (singleton x) ∧ Denotes x 1072693248 := by
  have hp : ScalarKind.f64.IsPattern 1.0 0x3ff0000000000000#64 := ⟨rfl, rfl⟩
  have hfit : 32 + ScalarKind.i32.bits ≤ ScalarKind.f64.bits := by decide
  obtain ⟨x, hlane, hx | ⟨-, hdst, -⟩⟩ := (lane_singleton hfit hp).2 (fun f hf => by cases hf)
  · exact ⟨hp, x, hlane, hx⟩
  · cases hdst

/-- The pattern of `1.1` read as an integer is between two numbers, and one of them is read. -/
theorem lane_singleton_rounds : ScalarKind.f64.IsPattern (Float.ofBits 0x3ff199999999999a) 0x3ff199999999999a#64 ∧
    ¬ ∃ x, (singleton (Float.ofBits 0x3ff199999999999a) : Bound).lane .f64 0 .i64 = some (singleton x) ∧
      ScalarKind.i64.IsPattern x ((0x3ff199999999999a#64).extractLsb' 0 64) := by
  have hp : ScalarKind.f64.IsPattern (Float.ofBits 0x3ff199999999999a) 0x3ff199999999999a#64 := ⟨rfl, rfl⟩
  have hint : ((0x3ff199999999999a#64).extractLsb' 0 64).toInt = 4607632778762754458 := by decide
  have hread : datum (ofInt 4607632778762754458) = .finite false 8999282771021005 9 := by decide
  refine ⟨hp, ?_⟩
  rintro ⟨x, -, hpattern⟩
  have hx : Denotes x ((0x3ff199999999999a#64).extractLsb' 0 64).toInt := hpattern
  rw [hint] at hx
  obtain ⟨s, m, e, hdatum, hvalue⟩ := (isNearest_ofInt 4607632778762754458).denotes hx.representable hx.abs_lt_limit
  rw [hread] at hdatum
  cases hdatum
  norm_num [scaled] at hvalue

end Interval

/-! ## 3. Words of a binary64 number -/

namespace Number

/-- The signed 32-bit word that starts at a bit of the pattern. -/
def wordAt (offset : Nat) (x : Float) : ℤ := (x.toBits.toBitVec.extractLsb' offset 32).toInt

/-- How often the low word has started again from its smallest value, counted from zero. -/
def turns (a : Nat) : Nat := (a + 2 ^ 31) / 2 ^ 32

/-- The low word of a pattern without its sign. -/
def lowWord (a : Nat) : ℤ := a - 2 ^ 32 * turns a

/-- The high word of a pattern with a sign. -/
def highWord (s : Bool) (a : Nat) : ℤ := (a / 2 ^ 32 : Nat) - 2 ^ 31 * s.toNat

theorem wordAt_eq (offset : Nat) (x : Float) :
    wordAt offset x = ((x.toBits.toNat / 2 ^ offset : Nat) : ℤ).bmod (2 ^ 32) := by
  rw [wordAt, BitVec.toInt_extractLsb', Nat.shiftRight_eq_div_pow]
  rfl

theorem wordAt_low (x : Float) : wordAt 0 x = lowWord (absBits x) := by
  have hsign := Bool.toNat_lt (signBit x)
  rw [wordAt_eq, toBits_eq, lowWord, turns, Int.bmod]
  split_ifs <;> omega

theorem wordAt_high (x : Float) : wordAt 32 x = highWord (signBit x) (absBits x) := by
  have hsign := Bool.toNat_lt (signBit x)
  have hbits : absBits x < 2 ^ 63 := absBits_lt_signUnit x
  rw [wordAt_eq, toBits_eq, highWord, Int.bmod]
  split_ifs <;> omega

theorem abs_wordAt_le (offset : Nat) (x : Float) : |wordAt offset x| ≤ 2 ^ 53 :=
  (ScalarKind.abs_toInt_le (by norm_num) _).1.trans (by norm_num)

theorem turns_zero : turns 0 = 0 := by norm_num [turns]

theorem lowWord_zero : lowWord 0 = 0 := by rw [lowWord, turns_zero]; rfl

theorem lowWord_bounds (n : Nat) : -2 ^ 31 ≤ lowWord n ∧ lowWord n ≤ 2 ^ 31 - 1 := by
  unfold lowWord turns
  omega

/-- Within one turn the low word follows the pattern. -/
theorem lowWord_between {p n q : Nat} (hp : p ≤ n) (hq : n ≤ q) (h : turns p = turns q) :
    lowWord p ≤ lowWord n ∧ lowWord n ≤ lowWord q := by
  unfold lowWord turns at *
  omega

/-- Away from zero a rank between two others is between them without its sign. -/
theorem natAbs_between {l k h : ℤ} (hl : l ≤ k) (hh : k ≤ h) :
    (l ≤ 0 ∧ 0 ≤ h) ∧ (k.natAbs ≤ h.natAbs ∨ k.natAbs ≤ l.natAbs) ∨
      l.natAbs ≤ k.natAbs ∧ k.natAbs ≤ h.natAbs ∨ h.natAbs ≤ k.natAbs ∧ k.natAbs ≤ l.natAbs := by
  omega

/-- The ranks between two others reach every count between theirs, and around zero every smaller one. -/
theorem exists_natAbs {l h : ℤ} {n : Nat} (hle : l ≤ h) (hlow : min l.natAbs h.natAbs ≤ n ∨ l ≤ 0 ∧ 0 ≤ h)
    (hhigh : n ≤ max l.natAbs h.natAbs) : ∃ k, l ≤ k ∧ k ≤ h ∧ k.natAbs = n := by
  by_cases hpos : l ≤ n ∧ n ≤ h
  · exact ⟨n, hpos.1, hpos.2, Int.natAbs_natCast n⟩
  · exact ⟨-n, by omega, by omega, by simp⟩

/-- Where the low word starts again, it has just had its largest value. -/
theorem exists_turn {p q : Nat} (h : turns p < turns q) :
    ∃ n, p ≤ n ∧ n + 1 ≤ q ∧ lowWord n = 2 ^ 31 - 1 ∧ lowWord (n + 1) = -2 ^ 31 := by
  unfold lowWord turns at *
  refine ⟨2 ^ 32 * ((q + 2 ^ 31) / 2 ^ 32) - 2 ^ 31 - 1, ?_, ?_, ?_, ?_⟩ <;> omega

/-- The high word follows the rank on each side of zero. -/
theorem highWord_between {s r t : Bool} {p n q : Nat} {lo hi : ℤ} (hn : n < 2 ^ 63)
    (hlo : lo = min (highWord s p) (highWord t q)) (hhi : hi = max (highWord s p) (highWord t q))
    (hl : (if s then -(p : ℤ) else p) ≤ if r then -(n : ℤ) else n)
    (hh : (if r then -(n : ℤ) else n) ≤ if t then -(q : ℤ) else q)
    (hzero : (if s then -(p : ℤ) else p) ≤ 0 ∧ 0 ≤ (if t then -(q : ℤ) else q) → lo ≤ -2 ^ 31 ∧ 0 ≤ hi) :
    lo ≤ highWord r n ∧ highWord r n ≤ hi := by
  subst hlo hhi
  unfold highWord at *
  cases s <;> cases r <;> cases t <;>
    simp only [Bool.toNat_false, Bool.toNat_true, Bool.false_eq_true, if_true, if_false] at * <;> omega

end Number

/-! ## 4. Words of a range -/

namespace Interval

variable {a : Bound}

/-- A range with finite ends contains the finite numbers whose ranks lie between those of its ends. -/
theorem contains_iff_rank {v : Float} (hlo : a.lo.isFinite = true) (hhi : a.hi.isFinite = true) :
    a.contains v = true ↔ v.isFinite = true ∧ rank a.lo ≤ rank v ∧ rank v ≤ rank a.hi := by
  have hdlo := denotes_units hlo
  have hdhi := denotes_units hhi
  rw [contains, Bool.and_eq_true, le_true_iff, le_true_iff]
  constructor
  · rintro ⟨⟨-, hnumber, hle⟩, -, -, hge⟩
    have hv : v.isFinite = true := by
      rw [hdlo.exact] at hle
      rw [hdhi.exact] at hge
      rcases Below.cases ⟨hnumber, hge⟩ with hbot | ⟨q, -, hq⟩
      · rw [exact, hbot] at hle
        exact absurd (le_bot_iff.mp hle) WithBot.coe_ne_bot
      · exact hq.isFinite
    exact ⟨hv, (exact_le_iff_rank hlo hv).mp hle, (exact_le_iff_rank hv hhi).mp hge⟩
  · rintro ⟨hv, hle, hge⟩
    have hnumber := (denotes_units hv).isNumber
    exact ⟨⟨hdlo.isNumber, hnumber, (exact_le_iff_rank hlo hv).mpr hle⟩,
      hnumber, hdhi.isNumber, (exact_le_iff_rank hv hhi).mpr hge⟩

theorem holds_span {m n k : ℤ} (hm : |m| ≤ 2 ^ 53) (hn : |n| ≤ 2 ^ 53) :
    (span (ofInt m) (ofInt n) : Bound).Holds (whole k) ↔ min m n ≤ k ∧ k ≤ max m n := by
  have hlo := (denotes_ofInt hm).lesser (denotes_ofInt hn)
  have hhi := (denotes_ofInt hm).greater (denotes_ofInt hn)
  rw [Holds, span, hlo.below_iff, hhi.above_iff, whole, coe_le_coe, coe_le_coe, Int.cast_le, Int.cast_le]

/-- A lane of words spans the words of the two ends. -/
theorem lane_words (a : Bound) {offset : Nat} (hoffset : offset ≤ 32) :
    a.lane .f64 offset .i32 = some (span (ofInt (wordAt offset a.lo)) (ofInt (wordAt offset a.hi))) := by
  have hread : ∀ x : Float, ScalarKind.i32.decode (ScalarKind.f64.encode x >>> offset) = ofInt (wordAt offset x) :=
    fun x => ScalarKind.decode_integer (k := .i32) (p := x.toBits.toBitVec) rfl
  have hfinite : ∀ x : Float, (ofInt (wordAt offset x)).isFinite = true :=
    fun x => isFinite_ofInt ((abs_wordAt_le offset x).trans (by norm_num))
  rw [lane_of_fits (by simp only [ScalarKind.bits]; omega)]
  simp only [hread, hfinite, Bool.and_self, if_true]

section Low

variable (hlo : a.lo.isFinite = true) (hhi : a.hi.isFinite = true) {j : Bound}
  (hj : ∀ k, j.Holds (whole k) ↔
    min (wordAt 0 a.lo) (wordAt 0 a.hi) ≤ k ∧ k ≤ max (wordAt 0 a.lo) (wordAt 0 a.hi))
include hlo hhi hj

/-- Low words that do not start again lie between those of the ends. -/
theorem holds_low_words (hturn : turns (absBits a.lo) = turns (absBits a.hi))
    (hzero : rank a.lo ≤ 0 ∧ 0 ≤ rank a.hi → turns (absBits a.lo) = 0 ∧ j.Holds (whole 0)) {v : Float}
    (hv : a.contains v = true) : j.Holds (whole (wordAt 0 v)) := by
  obtain ⟨-, h1, h2⟩ := (contains_iff_rank hlo hhi).mp hv
  simp only [wordAt_low, absBits_eq_natAbs] at hj hturn hzero ⊢
  rw [hj]
  rcases natAbs_between h1 h2 with ⟨hz, hside⟩ | ⟨hbelow, habove⟩ | ⟨hbelow, habove⟩
  · obtain ⟨hnone, hnull⟩ := hzero hz
    rw [hj, ← lowWord_zero] at hnull
    rw [← turns_zero] at hnone
    rcases hside with hside | hside
    · have hword := lowWord_between (Nat.zero_le _) hside (hnone.symm.trans hturn)
      exact ⟨hnull.1.trans hword.1, hword.2.trans (le_max_right _ _)⟩
    · have hword := lowWord_between (Nat.zero_le _) hside hnone.symm
      exact ⟨hnull.1.trans hword.1, hword.2.trans (le_max_left _ _)⟩
  · have hword := lowWord_between hbelow habove hturn
    exact ⟨(min_le_left _ _).trans hword.1, hword.2.trans (le_max_right _ _)⟩
  · have hword := lowWord_between hbelow habove hturn.symm
    exact ⟨(min_le_right _ _).trans hword.1, hword.2.trans (le_max_left _ _)⟩

/-- The low words of the numbers in a range lie between those of its ends, unless the low word
starts again in between and the ends do not span every word. -/
theorem low_words_iff (hle : rank a.lo ≤ rank a.hi) :
    (∀ v, a.contains v = true → j.Holds (whole (wordAt 0 v))) ↔
      j.Holds (whole (-2 ^ 31)) ∧ j.Holds (whole (2 ^ 31 - 1)) ∨
      turns (absBits a.lo) = turns (absBits a.hi) ∧
        (rank a.lo ≤ 0 ∧ 0 ≤ rank a.hi → turns (absBits a.lo) = 0 ∧ j.Holds (whole 0)) := by
  constructor
  · intro h
    have hlt := isFinite_iff_absBits.mp hlo
    have hlt' := isFinite_iff_absBits.mp hhi
    simp only [wordAt_low, absBits_eq_natAbs] at h hlt hlt' ⊢
    have hword : ∀ n : Nat, (min (rank a.lo).natAbs (rank a.hi).natAbs ≤ n ∨ rank a.lo ≤ 0 ∧ 0 ≤ rank a.hi) →
        n ≤ max (rank a.lo).natAbs (rank a.hi).natAbs → j.Holds (whole (lowWord n)) := by
      intro n hlow hhigh
      obtain ⟨k, h1, h2, rfl⟩ := exists_natAbs hle hlow hhigh
      obtain ⟨v, hv, rfl⟩ := exists_of_rank (k := k) (by omega)
      exact h v ((contains_iff_rank hlo hhi).mpr ⟨hv, h1, h2⟩)
    have hfull : ∀ {p q : Nat}, turns p < turns q →
        (min (rank a.lo).natAbs (rank a.hi).natAbs ≤ p ∨ rank a.lo ≤ 0 ∧ 0 ≤ rank a.hi) →
        q ≤ max (rank a.lo).natAbs (rank a.hi).natAbs →
        j.Holds (whole (-2 ^ 31)) ∧ j.Holds (whole (2 ^ 31 - 1)) := by
      intro p q hturn hp hq
      obtain ⟨n, h1, h2, hlast, hfirst⟩ := exists_turn hturn
      rw [← hlast, ← hfirst]
      exact ⟨hword _ (by omega) (by omega), hword _ (by omega) (by omega)⟩
    rcases lt_trichotomy (turns (rank a.lo).natAbs) (turns (rank a.hi).natAbs) with hturn | hturn | hturn
    · exact Or.inl (hfull hturn (Or.inl (min_le_left _ _)) (le_max_right _ _))
    · by_cases hzero : rank a.lo ≤ 0 ∧ 0 ≤ rank a.hi
      · rcases Nat.eq_zero_or_pos (turns (rank a.lo).natAbs) with hnone | hsome
        · have hnull := hword 0 (Or.inr hzero) (Nat.zero_le _)
          rw [lowWord_zero] at hnull
          exact Or.inr ⟨hturn, fun _ => ⟨hnone, hnull⟩⟩
        · rw [← turns_zero] at hsome
          exact Or.inl (hfull hsome (Or.inr hzero) (le_max_left _ _))
      · exact Or.inr ⟨hturn, fun h => absurd h hzero⟩
    · exact Or.inl (hfull hturn (Or.inl (min_le_right _ _)) (le_max_left _ _))
  · rintro (⟨hfirst, hlast⟩ | ⟨hturn, hzero⟩) v hv
    · rw [hj] at hfirst hlast
      have hbounds := lowWord_bounds (absBits v)
      rw [← wordAt_low] at hbounds
      exact (hj _).mpr ⟨hfirst.1.trans hbounds.1, hbounds.2.trans hlast.2⟩
    · exact holds_low_words hlo hhi hj hturn hzero hv

end Low

/-- The high words of the numbers in a range lie between those of its ends, unless the range
has both zeros and the ends do not span their words. -/
theorem high_words_iff (hlo : a.lo.isFinite = true) (hhi : a.hi.isFinite = true) {j : Bound}
    (hj : ∀ k, j.Holds (whole k) ↔
      min (wordAt 32 a.lo) (wordAt 32 a.hi) ≤ k ∧ k ≤ max (wordAt 32 a.lo) (wordAt 32 a.hi)) :
    (∀ v, a.contains v = true → j.Holds (whole (wordAt 32 v))) ↔
      (rank a.lo ≤ 0 ∧ 0 ≤ rank a.hi → j.Holds (whole (-2 ^ 31)) ∧ j.Holds (whole 0)) := by
  simp only [wordAt_high] at hj ⊢
  constructor
  · intro h hz
    have hside : ∀ s : Bool, j.Holds (whole (highWord s 0)) := by
      intro s
      obtain ⟨v, hv, hsign, hbits⟩ := exists_of_absBits s (show 0 < Format.double.infinity by decide)
      have hrank : rank v = 0 := by simp [rank, hbits]
      have hword := h v ((contains_iff_rank hlo hhi).mpr ⟨hv, hrank ▸ hz.1, hrank ▸ hz.2⟩)
      rwa [hsign, hbits] at hword
    exact ⟨hside true, hside false⟩
  · intro hzero v hv
    obtain ⟨-, h1, h2⟩ := (contains_iff_rank hlo hhi).mp hv
    rw [hj]
    refine highWord_between (absBits_lt_signUnit v) rfl rfl h1 h2 ?_
    intro hz
    obtain ⟨hmin, hmax⟩ := hzero hz
    rw [hj] at hmin hmax
    exact ⟨hmin.1, hmax.2⟩

theorem contains_zero_iff_rank (hlo : a.lo.isFinite = true) (hhi : a.hi.isFinite = true) :
    a.contains 0.0 = true ↔ rank a.lo ≤ 0 ∧ 0 ≤ rank a.hi := by
  have hrank : rank 0.0 = 0 := by decide
  rw [contains_iff_rank hlo hhi, hrank]
  exact and_iff_right denotes_zero.isFinite

/-- The two words of the binary64 numbers in a range. Low words lie in their lane exactly if the
lane has every word, or the low word does not start again between the ends, nor between zero
and an end where zero is in the range. High words lie in their lane exactly if the range has no
zero, or the lane has the words of both zeros. -/
theorem lane_words_iff (hlo : a.lo.isFinite = true) (hhi : a.hi.isFinite = true) (hle : Endpoint.le a.lo a.hi = true) :
    (∃ j, a.lane .f64 0 .i32 = some j ∧ ((∀ v, a.contains v = true → j.Holds (whole (wordAt 0 v))) ↔
      j.Holds (whole (-2 ^ 31)) ∧ j.Holds (whole (2 ^ 31 - 1)) ∨
      turns (absBits a.lo) = turns (absBits a.hi) ∧
        (a.contains 0.0 = true → turns (absBits a.lo) = 0 ∧ j.Holds (whole 0)))) ∧
    ∃ j, a.lane .f64 32 .i32 = some j ∧ ((∀ v, a.contains v = true → j.Holds (whole (wordAt 32 v))) ↔
      (a.contains 0.0 = true → j.Holds (whole (-2 ^ 31)) ∧ j.Holds (whole 0))) := by
  have hrank : rank a.lo ≤ rank a.hi := (exact_le_iff_rank hlo hhi).mp (le_true_iff.mp hle).2.2
  rw [contains_zero_iff_rank hlo hhi]
  refine ⟨⟨_, lane_words a (by norm_num), ?_⟩, _, lane_words a le_rfl, ?_⟩
  · exact low_words_iff hlo hhi (fun k => holds_span (abs_wordAt_le 0 a.lo) (abs_wordAt_le 0 a.hi)) hrank
  · exact high_words_iff hlo hhi fun k => holds_span (abs_wordAt_le 32 a.lo) (abs_wordAt_le 32 a.hi)

/-- Next to one the low word counts the numbers. -/
theorem lane_words_iff_near_one :
    let a : Bound := ⟨1.0, Float.ofBits 0x3ff0000000000007⟩
    (∃ j, a.lane .f64 0 .i32 = some j ∧ ∀ v, a.contains v = true → j.Holds (whole (wordAt 0 v))) ∧
      ∃ j, a.lane .f64 32 .i32 = some j ∧ ∀ v, a.contains v = true → j.Holds (whole (wordAt 32 v)) := by
  intro a
  have hzero : a.contains 0.0 = false := by decide
  obtain ⟨⟨j, hj, hlow⟩, i, hi, hhigh⟩ := @lane_words_iff a (by decide) (by decide) (by decide)
  refine ⟨⟨j, hj, hlow.mpr (Or.inr ⟨by decide, fun h => ?_⟩)⟩, i, hi, hhigh.mpr fun h => ?_⟩
  · rw [hzero] at h
    cases h
  · rw [hzero] at h
    cases h

/-- From one to two the low word starts again many times, and the lane has only its zero. -/
theorem low_word_outside_lane :
    let a : Bound := ⟨1.0, 2.0⟩
    a.contains (Float.ofBits 0x3ff199999999999a) = true ∧ wordAt 0 (Float.ofBits 0x3ff199999999999a) = -1717986918 ∧
      ∃ j, a.lane .f64 0 .i32 = some j ∧ ¬ j.Holds (whole (-1717986918)) := by
  intro a
  refine ⟨by decide, by decide, _, lane_words a (by norm_num), ?_⟩
  rw [holds_span (abs_wordAt_le 0 a.lo) (abs_wordAt_le 0 a.hi)]
  have hlo : wordAt 0 a.lo = 0 := by decide
  have hhi : wordAt 0 a.hi = 0 := by decide
  rw [hlo, hhi]
  decide

end Interval

end RangedIR
