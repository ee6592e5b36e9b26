/-
RangedIR.Proofs.Analysis.Conversions — conversions of words and their ranges.

A conversion reads the bits of a word anew. The interval that is recorded for it holds the
converted word unless a single bit is taken for a sign, and it lies in the signed range of
its type unless a number is converted to an unsigned word.
-/
import RangedIR.Proofs.Analysis.Ownership
import RangedIR.Proofs.Analysis.WordRanges

namespace RangedIR

open Number

/-! ## 1. Converted words -/

namespace Word

variable {bits : Nat}

/-- The number that a word is known by: a single bit is zero or one, all others are signed. -/
def known (x : BitVec bits) : ℤ := if bits = 1 then x.toNat else x.toInt

/-- The number that a word is known by after its conversion to a type. There is none where
the types do not admit the conversion. -/
def converted? (op : CastOp) (x : BitVec bits) (dst : Ty) : Option ℤ :=
  match op, dst with
  | .zext, .int width => if bits < width then some (known (x.setWidth width)) else none
  | .sext, .int width => if bits < width then some (known (x.signExtend width)) else none
  | .trunc, .int width => if 1 ≤ width ∧ width < bits then some (known (x.setWidth width)) else none
  | .uitofp, .double => some x.toNat
  | .sitofp, .double => some x.toInt
  | _, _ => none

/-- Whether a conversion has to do with a single bit as a sign: it extends one, or it leaves
one and reads that as it reads longer words. -/
def signsBit (op : CastOp) (bits : Nat) (dst : Ty) : Bool :=
  match op with
  | .sext | .sitofp => bits == 1
  | .trunc => dst.intBits? == some 1
  | _ => false

theorem known_of_ne (x : BitVec bits) (h : bits ≠ 1) : known x = x.toInt := if_neg h

/-- The unsigned reading of a word. -/
theorem toInt_emod (x : BitVec bits) : x.toInt % 2 ^ bits = x.toNat := by
  have hlt : (x.toNat : ℤ) < 2 ^ bits := by exact_mod_cast x.isLt
  have h := Int.bmod_emod (x := x.toNat) (m := 2 ^ bits)
  rw [x.toInt_eq_toNat_bmod]
  push_cast at h
  rw [h, Int.emod_eq_of_lt (by positivity) hlt]

theorem known_setWidth (x : BitVec bits) (h0 : 1 ≤ bits) {width : Nat} (h : bits < width) :
    known (x.setWidth width) = x.toNat := by
  have hlt : (x.toNat : ℤ) < 2 ^ bits := by exact_mod_cast x.isLt
  have hpow : (2 : ℤ) ^ bits ≤ 2 ^ (width - 1) := pow_le_pow_right₀ (by norm_num) (by omega)
  rw [known_of_ne _ (by omega), BitVec.toInt_setWidth]
  exact InRange.bmod (by omega) ⟨by omega, by omega⟩

theorem toInt_setWidth_of_lt (x : BitVec bits) {width : Nat} (h : width < bits) :
    (x.setWidth width).toInt = x.toInt.bmod (2 ^ width) := by
  rw [BitVec.toInt_setWidth, x.toInt_eq_toNat_bmod, Int.bmod_bmod_of_dvd]
  exact_mod_cast Nat.pow_dvd_pow 2 h.le

end Word

open Word

/-! ## 2. Narrowing -/

namespace Transfer

variable {bits : Nat} {i j w : Bound} {n : ℤ}

/-- The ends of an interval that fits, as exact numbers. -/
theorem fits_iff (h0 : 1 ≤ bits) (hb : bits ≤ 54) :
    fits i bits = true ↔ Above i.lo (whole (-2 ^ (bits - 1))) ∧ Below i.hi (whole (2 ^ (bits - 1) - 1)) := by
  have hmin := @denotes_signedMin bits h0 (by omega)
  have hmax := @denotes_signedMax bits h0 hb
  unfold fits Above Below
  rw [Bool.and_eq_true, decide_eq_true_iff, decide_eq_true_iff, le_iff, le_iff, hmin.exact, hmax.exact]
  exact ⟨fun h => ⟨h.1.2, h.2.1, h.2.2.2⟩, fun h => ⟨⟨hmin.isNumber, h.1⟩, h.2.1, hmax.isNumber, h.2.2⟩⟩

theorem fits_of_inRange {p q : ℤ} (h0 : 1 ≤ bits) (hb : bits ≤ 54) (hlo : Denotes i.lo p) (hhi : Denotes i.hi q)
    (hp : InRange bits p) (hq : InRange bits q) : fits i bits = true :=
  (fits_iff h0 hb).mpr
    ⟨hlo.above_iff.mpr (whole_le.mpr hp.1), hhi.below_iff.mpr (whole_le.mpr (Int.le_sub_one_of_lt hq.2))⟩

theorem fits_wrapped (h0 : 1 ≤ bits) (hb : bits ≤ 54) (hw : wrapped? i bits = some w) : fits w bits = true := by
  unfold wrapped? at hw
  dsimp only at hw
  split_ifs at hw
  cases hw
  exact fits_of_inRange h0 hb (denotes_wrapSigned i.lo hb) (denotes_wrapSigned i.hi hb) (inRange_bmod h0 _)
    (inRange_bmod h0 _)

/-- Whatever is narrowed to a width, flagged or not, lies in its signed range. -/
theorem fits_narrow {op : CastOp} (h0 : 1 ≤ bits) (hb : bits ≤ 54) (hj : (narrow op i bits).value = some j) :
    fits j bits = true := by
  unfold narrow at hj
  split_ifs at hj with hfits
  · cases hj
    exact hfits
  · split at hj
    next w hw =>
      cases hj
      exact fits_wrapped h0 hb hw
    next =>
      cases hj
      have hlo := inRange_bmod h0 (toSigned64 i.lo)
      have hhi := inRange_bmod h0 (toSigned64 i.hi)
      have hden := @denotes_wrapSigned bits i.lo hb
      have hden' := @denotes_wrapSigned bits i.hi hb
      exact fits_of_inRange (i := .span _ _) h0 hb (hden.lesser hden') (hden.greater hden')
        ⟨le_min hlo.1 hhi.1, min_lt_of_left_lt hlo.2⟩ ⟨le_max_of_le_left hlo.1, max_lt hlo.2 hhi.2⟩

theorem fits_intoType {op : BinaryOp} (h0 : 2 ≤ bits) (hb : bits ≤ 54)
    (hj : (intoType op (.int bits) i).value = some j) : fits j bits = true := by
  obtain ⟨hfits, rfl⟩ | ⟨-, hw⟩ := intoType_cases hj
  · exact hfits.resolve_left (by omega)
  · exact fits_wrapped (by omega) hb hw

/-- Narrowing that is not flagged keeps the low bits of every integer between the ends. -/
theorem holds_narrow {op : CastOp} (h0 : 1 ≤ bits) (hb : bits ≤ 52) (hi : i.Encloses (2 ^ 52) n)
    (hj : (narrow op i bits).value = some j) (hquiet : ∀ r ∈ (narrow op i bits).remarks, r.code ≠ .narrowing) :
    j.Holds (whole (n.bmod (2 ^ bits))) := by
  have hslips := slips_eq_false hb hi
  unfold narrow at hj hquiet
  split_ifs at hj hquiet with hfits
  · cases hj
    rw [holds_fits h0 (by omega) hi.holds hfits]
    exact hi.holds
  · cases hw : wrapped? i bits with
    | none =>
      rw [hw] at hquiet
      exact absurd rfl (hquiet _ List.mem_cons_self)
    | some w =>
      rw [hw] at hj
      cases hj
      exact holds_wrapped hb hi.holds (hi.magnitude.trans (by norm_num)) (by simpa [slips, hfits, hw] using hslips) hw

end Transfer

/-! ## 3. Intervals of converted words -/

/-- The ends are numbers that words of a width are known by. -/
def Interval.EndsInWords (i : Bound) (bits : Nat) : Prop :=
  ∃ p q : BitVec bits, Denotes i.lo (known p) ∧ Denotes i.hi (known q)

namespace Interval.EndsInWords

variable {bits : Nat} {i : Bound} {x : BitVec bits}

theorem encloses (hi : i.EndsInWords bits) (h1 : bits ≠ 1) (hb : bits ≤ 52) (hx : i.Holds (whole (known x))) :
    i.Encloses (2 ^ 52) x.toInt := by
  obtain ⟨p, q, hlo, hhi⟩ := hi
  rw [known_of_ne _ h1] at hlo hhi hx
  have hpow : (2 : ℤ) ^ (bits - 1) ≤ 2 ^ 52 := pow_le_pow_right₀ (by norm_num) (by omega)
  have hp := p.le_toInt
  have hq := q.toInt_lt
  exact encloses_of_holds (by omega) (by omega) hlo hhi hx

/-- The signed reading of a word lies in the interval unless it is a bit that is set. -/
theorem holds_toInt (hi : i.EndsInWords bits) (hx : i.Holds (whole (known x))) :
    i.Holds (whole x.toInt) ↔ (bits = 1 → x.toInt = 0) := by
  by_cases h1 : bits = 1
  · subst h1
    obtain ⟨p, -, hlo, -⟩ := hi
    have hlt := x.toInt_lt
    have hmod := toInt_emod x
    constructor
    · intro h _
      have hle : known p ≤ x.toInt := whole_le.mp (hlo.below_iff.mp h.1)
      have h0 : 0 ≤ known p := Int.natCast_nonneg _
      omega
    · intro hzero
      have hzero := hzero rfl
      have hknown : known x = x.toInt := by
        change (x.toNat : ℤ) = x.toInt
        omega
      rwa [← hknown]
  · rw [← known_of_ne x h1]
    exact ⟨fun _ h => absurd h h1, fun _ => hx⟩

theorem holds_toNat (hi : i.EndsInWords bits) (h0 : 1 ≤ bits) (hb : bits ≤ 52) (hx : i.Holds (whole (known x))) :
    (Transfer.asUnsigned i bits).Holds (whole x.toNat) := by
  by_cases h1 : bits = 1
  · subst h1
    obtain ⟨p, -, hlo, -⟩ := hi
    have hnonneg : i.isNonneg = true := (isNonneg_iff_of_denotes hlo).mpr (Int.natCast_nonneg _)
    rwa [Transfer.asUnsigned, if_pos hnonneg]
  · rw [known_of_ne x h1] at hx
    rw [← toInt_emod]
    exact Transfer.holds_asUnsigned h0 hb hx x.le_toInt x.toInt_lt

end Interval.EndsInWords

namespace Transfer

/-- An interval in the signed range that holds the signed reading of a word holds the number
that the word is known by, unless it is a bit that is set. -/
theorem holds_known_iff {bits : Nat} {j : Bound} {x : BitVec bits} (h0 : 1 ≤ bits) (hb : bits ≤ 54)
    (hfits : fits j bits = true) (hx : j.Holds (whole x.toInt)) :
    j.Holds (whole (known x)) ↔ (bits = 1 → known x = 0) := by
  by_cases h1 : bits = 1
  · -- the interval ends at zero, where the bit is known by one if it is set
    subst h1
    have hnonneg : 0 ≤ known x := Int.natCast_nonneg _
    constructor
    · intro hone _
      have hrange := inRange_bmod le_rfl (known x)
      rw [holds_fits le_rfl (by omega) hone hfits] at hrange
      have hlast := hrange.2
      omega
    · intro hzero
      have hzero : (x.toNat : ℤ) = 0 := hzero rfl
      have hmod := toInt_emod x
      have hle := x.toInt_lt
      have hge := x.le_toInt
      have hknown : known x = x.toInt := by
        change (x.toNat : ℤ) = _
        omega
      rwa [hknown]
  · rw [known_of_ne _ h1]
    exact iff_of_true hx fun h => absurd h h1

/-- A conversion of words that is recorded and not flagged holds the converted word, except
where a bit that is set is taken for a sign: there it never does. -/
theorem holds_converted_iff {op : CastOp} {bits : Nat} {dst : Ty} {i j : Bound} {x : BitVec bits} {n : ℤ}
    (h0 : 1 ≤ bits) (hb : bits ≤ 52) (hi : i.EndsInWords bits) (hx : i.Holds (whole (known x)))
    (hn : converted? op x dst = some n) (hj : (cast op (.int bits) dst i).value = some j)
    (hquiet : ∀ r ∈ (cast op (.int bits) dst i).remarks, r.code ≠ .narrowing) :
    j.Holds (whole n) ↔ (signsBit op bits dst = true → n = 0) := by
  unfold converted? at hn
  split at hn
  next width =>
    -- more bits, all of them zero
    split_ifs at hn with hlt
    cases hn
    cases hj
    rw [known_setWidth x h0 hlt]
    exact iff_of_true (hi.holds_toNat h0 hb hx) fun h => by cases h
  next width =>
    -- more bits, all of them the sign
    split_ifs at hn with hlt
    cases hn
    cases hj
    rw [known_of_ne _ (by omega), BitVec.toInt_signExtend_of_le hlt.le, hi.holds_toInt hx, signsBit, beq_iff_eq]
  next width =>
    split_ifs at hn with hlt
    cases hn
    have hheld := holds_narrow hlt.1 (by omega) (hi.encloses (by omega) hb hx) hj hquiet
    rw [← toInt_setWidth_of_lt x hlt.2] at hheld
    rw [holds_known_iff hlt.1 (by omega) (fits_narrow hlt.1 (by omega) hj) hheld, signsBit, Ty.intBits?, beq_iff_eq,
      Option.some_inj]
  next =>
    cases hn
    cases hj
    exact iff_of_true (hi.holds_toNat h0 hb hx) fun h => by cases h
  next =>
    cases hn
    cases hj
    rw [hi.holds_toInt hx, signsBit, beq_iff_eq]
  next => cases hn

/-- A bit that is set. -/
def setBit : Bound := ⟨ofInt 1, ofInt 1⟩

/-- The words from 250 to 260, of which a byte has two pieces. -/
def aroundByte : Bound := ⟨ofInt 250, ofInt 260⟩

/-- Words that straddle a turn of the byte are narrowed in one piece. -/
theorem holds_converted_iff_trunc :
    (cast .trunc (.int 16) (.int 8) aroundByte).value = some ⟨ofInt (-6), ofInt 4⟩ ∧
    converted? .trunc (258 : BitVec 16) (.int 8) = some 2 ∧ (⟨ofInt (-6), ofInt 4⟩ : Bound).Holds (whole 2) := by
  have hrecorded : (cast .trunc (.int 16) (.int 8) aroundByte).value = some ⟨ofInt (-6), ofInt 4⟩ := rfl
  have hword : converted? .trunc (258 : BitVec 16) (.int 8) = some 2 := by decide
  have hends : aroundByte.EndsInWords 16 := ⟨250, 260, denotes_ofInt (by decide), denotes_ofInt (by decide)⟩
  have hx : aroundByte.Holds (whole (known (258 : BitVec 16))) := (Interval.holds_iff_contains (by decide)).mpr rfl
  have hquiet : (cast .trunc (.int 16) (.int 8) aroundByte).remarks = [] := rfl
  refine ⟨hrecorded, hword, (holds_converted_iff (by decide) (by decide) hends hx hword hrecorded ?_).mpr ?_⟩
  · rw [hquiet]
    exact fun r hr => by cases hr
  · exact fun h => by cases h

/-- A bit that is set becomes minus one when it is extended by its sign; one is recorded,
without a remark. -/
theorem set_bit_extended_unsigned :
    (cast .sext (.int 1) (.int 32) setBit) = .known setBit ∧ known (1 : BitVec 1) = 1 ∧ setBit.Holds (whole 1) ∧
    converted? .sext (1 : BitVec 1) (.int 32) = some (-1) ∧ ¬ setBit.Holds (whole (-1)) :=
  ⟨rfl, rfl, (Interval.holds_iff_contains (by decide)).mpr rfl, by decide, fun h =>
    absurd ((Interval.holds_iff_contains (by decide)).mp h) (by decide)⟩

end Transfer

/-! ## 4. Recorded intervals of integers -/

/-- Whether types admit a conversion. -/
def CastOp.admits : CastOp → Ty → Ty → Bool
  | .zext, .int narrow, .int wide | .sext, .int narrow, .int wide | .trunc, .int wide, .int narrow => narrow < wide
  | .fptoui, src, .int _ | .fptosi, src, .int _ => src.isFloating
  | .uitofp, .int _, dst | .sitofp, .int _, dst => dst.isFloating
  | .fpext, .float, .double | .fptrunc, .double, .float => true
  | _, _, _ => false

namespace Transfer

variable {bits : Nat} {i j : Bound}

/-- Whether a conversion to a width may leave its signed range: a number is converted to an
unsigned word that is not a nonnegative signed one, or the interval of a word ends in a
fraction above minus one and the word gets one more bit. -/
def overreaches (op : CastOp) (src : Ty) (bits : Nat) (i : Bound) : Bool :=
  match op with
  | .fptoui => !(0.0 ≤ (truncated i).lo && (truncated i).hi ≤ signedMax bits)
  | .zext => src.intBits? == some (bits - 1) && -1.0 < i.hi && i.hi < 0.0
  | _ => false

/-- What is known of a value of integer type lies in the signed range of the type. A single
bit may be known by zero and one as well. -/
def fitsType (i : Bound) (ty : Ty) : Bool := ty.intBits?.all fun bits => fits i (max bits 2)

theorem fits_mono {narrow : Nat} (h0 : 1 ≤ narrow) (hle : narrow ≤ bits) (hb : bits ≤ 54) (h : fits i narrow = true) :
    fits i bits = true := by
  have hpow : (2 : ℤ) ^ (narrow - 1) ≤ 2 ^ (bits - 1) := pow_le_pow_right₀ (by norm_num) (by omega)
  rw [fits_iff h0 (by omega)] at h
  rw [fits_iff (by omega) hb]
  exact ⟨h.1.le (whole_le.mpr (by omega)), h.2.le (whole_le.mpr (by omega))⟩

/-- The unsigned reading has room in a longer word. -/
theorem fits_asUnsigned {narrow : Nat} (hlt : narrow < bits) (h0 : 2 ≤ bits) (hb : bits ≤ 53)
    (hi : fits i (max narrow 2) = true) (hreach : overreaches .zext (.int narrow) bits i = false) :
    fits (asUnsigned i narrow) bits = true := by
  have hpow : (2 : ℤ) ^ narrow ≤ 2 ^ (bits - 1) := pow_le_pow_right₀ (by norm_num) (by omega)
  have hpos : (0 : ℤ) < 2 ^ narrow := by positivity
  unfold asUnsigned
  dsimp only
  split_ifs with hnonneg hneg
  · exact fits_mono (by omega) (by omega) (by omega) hi
  · have hsize := @denotes_size narrow (by omega)
    have hsmall : (2 : ℤ) ^ (bits - 1) ≤ 2 ^ 52 := pow_le_pow_right₀ (by norm_num) (by omega)
    have hle : (2 : ℤ) ^ (max narrow 2 - 1) ≤ 2 ^ (bits - 1) := pow_le_pow_right₀ (by norm_num) (by omega)
    have hpos' : (0 : ℤ) < 2 ^ (max narrow 2 - 1) := by positivity
    have hlow := ((fits_iff (by omega) (by omega)).mp hi).1.add_whole (hsize.above_iff.mpr le_rfl)
      (abs_le.mpr ⟨by omega, by omega⟩)
    have hupper : ∀ p : ℤ, -1 ≤ p → p ≤ 0 → p + 2 ^ narrow < 2 ^ (bits - 1) → Below i.hi (whole p) →
        Below (i.hi + (unsignedMax narrow + 1.0)) (whole (2 ^ (bits - 1) - 1)) := fun p hp hp' hlast hbelow =>
      (hbelow.add_whole (hsize.below_iff.mpr le_rfl) (abs_le.mpr ⟨by omega, by omega⟩)).le (whole_le.mpr (by omega))
    refine (fits_iff (by omega) (by omega)).mpr ⟨hlow.le (whole_le.mpr (by omega)), ?_⟩
    obtain ⟨hnumber, -, hzero⟩ := lt_iff.mp hneg
    rw [denotes_zero.exact] at hzero
    by_cases hnext : narrow = bits - 1
    · -- with one more bit, the last word is one below the size
      refine hupper (-1) le_rfl (by norm_num) (by rw [hnext]; omega) ⟨hnumber, not_lt.mp fun hgt => ?_⟩
      have hminus : Denotes (-1.0) ((-1 : ℤ) : ℚ) := by exact_mod_cast denotes_one.neg
      have hfraction : (-1.0 : Float) < i.hi := lt_iff.mpr ⟨hminus.isNumber, hnumber, by rw [hminus.exact]; exact hgt⟩
      simp [overreaches, Ty.intBits?, hnext, hfraction, hneg] at hreach
    · have hpow' : (2 : ℤ) ^ (narrow + 1) ≤ 2 ^ (bits - 1) := pow_le_pow_right₀ (by norm_num) (by omega)
      rw [pow_succ] at hpow'
      exact hupper 0 (by norm_num) le_rfl (by omega) ⟨hnumber, by simpa [whole] using hzero.le⟩
  · exact fits_of_inRange (i := ⟨_, _⟩) (by omega) (by omega) (by exact_mod_cast denotes_zero)
      (denotes_unsignedMax (by omega)) ⟨by simp, by positivity⟩ ⟨by omega, by omega⟩

/-- An unsigned word below half of its range is a signed one. -/
theorem fits_toUnsigned (h0 : 2 ≤ bits) (hb : bits ≤ 53) (hlo : 0.0 ≤ (truncated i).lo)
    (hhi : (truncated i).hi ≤ signedMax bits) (hj : (toUnsigned i bits).value = some j) : fits j bits = true := by
  have hmax := @denotes_signedMax bits (by omega) (by omega)
  have hunsigned := @denotes_unsignedMax bits hb
  have hpow : (2 : ℤ) ^ (bits - 1) ≤ 2 ^ bits := pow_le_pow_right₀ (by norm_num) (by omega)
  obtain ⟨-, hlow, hzero⟩ := le_iff.mp hlo
  obtain ⟨hhigh, -, hlast⟩ := le_iff.mp hhi
  rw [hmax.exact] at hlast
  have hroom : (truncated i).hi ≤ unsignedMax bits :=
    le_iff.mpr ⟨hhigh, hunsigned.isNumber, hlast.trans (hunsigned.exact ▸ whole_le.mpr (by omega))⟩
  unfold toUnsigned at hj
  dsimp only at hj
  rw [if_pos (by simp [hlo, hroom])] at hj
  cases hj
  refine (fits_iff (by omega) (by omega)).mpr ⟨⟨hlow, le_trans ?_ hzero⟩, hhigh, hlast⟩
  rw [denotes_zero.exact]
  exact_mod_cast whole_le.mpr (show -2 ^ (bits - 1) ≤ (0 : ℤ) by simp)

/-- A conversion whose types admit it, of an operand that fits its type. -/
theorem fits_cast {op : CastOp} {src : Ty} (h0 : 2 ≤ bits) (hb : bits ≤ 53) (htypes : op.admits src (.int bits) = true)
    (hi : fitsType i src = true) (hreach : overreaches op src bits i = false)
    (hj : (cast op src (.int bits) i).value = some j) : fits j bits = true := by
  cases op with
  | zext =>
    cases src with
    | int narrow =>
      cases hj
      exact fits_asUnsigned (of_decide_eq_true htypes) h0 hb hi hreach
    | void | float | double | ptr | array | struct => cases htypes
  | sext =>
    cases src with
    | int narrow =>
      cases hj
      have hlt : narrow < bits := of_decide_eq_true htypes
      exact fits_mono (by omega) (by omega) (by omega) hi
    | void | float | double | ptr | array | struct => cases htypes
  | trunc => exact fits_narrow (by omega) (by omega) hj
  | fptosi => exact fits_narrow (by omega) (by omega) hj
  | fptoui =>
    have hreach : 0.0 ≤ (truncated i).lo ∧ (truncated i).hi ≤ signedMax bits := by simpa [overreaches] using hreach
    exact fits_toUnsigned h0 hb hreach.1 hreach.2 hj
  | fpext | fptrunc | uitofp | sitofp => cases src <;> cases htypes

theorem fits_binary {op : BinaryOp} {lookup : Operand → Option Bound} {l r : Operand} (h0 : 2 ≤ bits) (hb : bits ≤ 54)
    (hj : (binary op (.int bits) lookup l r).value = some j) : fits j bits = true := by
  obtain ⟨a, b, hj, -⟩ := binary_cases hj
  obtain ⟨i, -, hj, -⟩ := binaryOn_cases hj
  exact fits_intoType h0 hb hj

end Transfer

open Transfer

/-- In any state, the interval that an operation or a conversion of integer type records
lies in the signed range of the type. An operation needs nothing for that; a conversion
needs an operand that fits its type, and that it does not overreach. -/
theorem State.recorded_integer_fits {s : State} {ctx : Context} {descend : Descent} {id : InstId} {inst : Inst}
    {bits : Nat} {j : Bound} (h0 : 2 ≤ bits) (hb : bits ≤ 53) (hinst : s.frame.function.inst? id = some inst)
    (hty : inst.ty = .int bits)
    (hkind : (∃ op l r, inst.kind = .binary op l r) ∨ ∃ op v src x, inst.kind = .cast op v src ∧
      op.admits src inst.ty = true ∧ s.operand? v = some x ∧ fitsType x src = true ∧ overreaches op src bits x = false)
    (hj : (s.transfer ctx descend id inst).2 = some j) :
    (s.step ctx descend id).bounds.get? (.inst s.frame.id id) = some j ∧ fits j bits = true := by
  have hstep : (s.transfer ctx descend id inst).1.frame = s.frame →
      (s.step ctx descend id).bounds.get? (.inst s.frame.id id) = some j := by
    intro hframe
    unfold step
    rw [hinst]
    dsimp only
    rw [hj]
    dsimp only
    rw [hframe, Bounds.get?_insert, if_pos rfl]
  rcases hkind with ⟨op, l, r, hkind⟩ | ⟨op, v, src, x, hkind, htypes, hx, hfits, hreach⟩
  · unfold transfer at hj hstep
    rw [hkind, hty] at hj hstep
    exact ⟨hstep (conclude_frame s id _), fits_binary h0 (by omega) hj⟩
  · unfold transfer at hj hstep
    rw [hkind, hty] at hj hstep
    dsimp only at hj hstep
    rw [hx] at hj hstep
    rw [hty] at htypes
    exact ⟨hstep (conclude_frame s id _), fits_cast h0 hb htypes hfits hreach hj⟩

/-- A byte taken to nine bits, and a number converted to an unsigned byte. -/
def widener : Function where
  name := "widener"
  retTy := .int 9
  params := [⟨"x", .int 8⟩]
  rangeType := none
  blocks := [⟨"entry", [0, 1, 2]⟩]
  insts := [
    ⟨some "z", .cast .zext (.arg 0) (.int 8), .int 9, none, 0, false⟩,
    ⟨some "u", .cast .fptoui (.const (.float (ofInt 200))) .double, .int 8, none, 0, false⟩,
    ⟨none, .ret (some (.int 9, .inst 0)), .void, none, 0, false⟩]

/-- The module of the conversions. -/
def widening : Context := ⟨⟨none, [], [], [], [widener]⟩, .default, .default, true⟩

/-- The start of the conversions, where the byte is known to lie around zero. -/
def widenerStart : State :=
  ⟨Run.initial, .start 0 widener, (Bounds.ofSeeds .empty).insert (.arg 0 0) ⟨ofInt (-5), ofInt 5⟩⟩

/-- The unsigned reading of a byte around zero is any of its words, and nine bits have room
for them. -/
theorem State.recorded_integer_fits_widener :
    (widenerStart.step widening (descent widening 0) 0).bounds.get? (.inst 0 0) = some ⟨0.0, unsignedMax 8⟩ ∧
    fits ⟨0.0, unsignedMax 8⟩ 9 = true := by
  have hinst : widenerStart.frame.function.inst? 0
      = some ⟨some "z", .cast .zext (.arg 0) (.int 8), .int 9, none, 0, false⟩ := rfl
  exact recorded_integer_fits (by decide) (by decide) hinst rfl
    (.inr ⟨.zext, .arg 0, .int 8, ⟨ofInt (-5), ofInt 5⟩, rfl, by decide, rfl, rfl, rfl⟩) rfl

set_option maxRecDepth 2000 in
/-- A number converted to an unsigned byte is recorded past the signed range of the byte,
without a remark. -/
theorem State.unsigned_byte_past_signed_range :
    ((widenerStart.step widening (descent widening 0) 1).bounds.get? (.inst 0 1)).map
      (fun j => (j.contains (ofInt 200), fits j 8)) = some (true, false) ∧
    (widenerStart.step widening (descent widening 0) 1).run.diagnostics.length = 0 :=
  ⟨rfl, rfl⟩

end RangedIR
