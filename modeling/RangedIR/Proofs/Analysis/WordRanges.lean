/-
RangedIR.Proofs.Analysis.WordRanges — arithmetic on ranges of words.

A word that lies between two others has, with a second one that does, a result in two's
complement. While the words have at most 26 bits, binary64 counts all that the analysis
computes from the ends of the two ranges, and the interval that it records holds the result
of every operation.
-/
import RangedIR.Proofs.Analysis.Folding
import RangedIR.Proofs.Interval.Enclosure

namespace RangedIR

open Number

/-! ## 1. Results that wrap around -/

namespace Word

/-- The result of an operation on words, where only a division by zero and a shift by the
width or more have none: the quotient of the least word and minus one wraps around. -/
def wrapping? (op : BinaryOp) {bits : Nat} (x y : BitVec bits) : Option (BitVec bits) :=
  match op with
  | .sdiv => if y = 0 then none else some (x.sdiv y)
  | .srem => if y = 0 then none else some (x.srem y)
  | op => result? op x y

variable {op : BinaryOp} {bits : Nat} {x y z : BitVec bits}

theorem ne_zero_of_wrapping (hop : op = .sdiv ∨ op = .udiv ∨ op = .srem ∨ op = .urem)
    (hz : wrapping? op x y = some z) : y.toInt ≠ 0 := by
  have hy : y ≠ 0 := by
    rintro rfl
    rcases hop with rfl | rfl | rfl | rfl <;> simp [wrapping?, result?] at hz
  exact fun h => hy (BitVec.toInt_inj.mp (by rw [h]; exact BitVec.toInt_zero.symm))

theorem toInt_wrapping (hz : wrapping? op x y = some z)
    (hsign : needsNonneg op = true → 0 ≤ x.toInt ∧ 0 ≤ y.toInt) :
    z.toInt = (exact op x.toInt y.toInt).bmod (2 ^ bits) := by
  cases op with
  | sdiv =>
    simp only [wrapping?] at hz
    split_ifs at hz
    cases hz
    exact BitVec.toInt_sdiv x y
  | srem =>
    simp only [wrapping?] at hz
    split_ifs at hz
    cases hz
    rw [← BitVec.toInt_bmod_cancel, BitVec.toInt_srem]
    rfl
  | add | sub | mul | udiv | urem | shl | lshr | ashr | and | or | xor => exact toInt_result hz hsign
  | fadd | fsub | fmul | fdiv | frem => cases hz

theorem wrapping?_comm (hop : op.isCommutative = true) (x y : BitVec bits) : wrapping? op x y = wrapping? op y x := by
  cases op with
  | sdiv | srem => cases hop
  | add | mul | and | or | xor | fadd | fmul | sub | fsub | udiv | fdiv | urem | frem | shl | lshr | ashr =>
    exact result?_comm hop x y

end Word

open Word

/-! ## 2. Ranges of words -/

/-- The ends are integers in the signed range of a width. -/
structure Interval.IsWordRange (i : Bound) (bits : Nat) : Prop where
  lo : isIntegral i.lo = true
  hi : isIntegral i.hi = true
  fits : Transfer.fits i bits = true

theorem Interval.IsWordRange.encloses {a : Bound} {bits : Nat} {n : ℤ} (h0 : 2 ≤ bits) (hb : bits ≤ 26)
    (ha : a.IsWordRange bits) (h : a.Holds (whole n)) : a.Encloses (2 ^ 25) n := by
  obtain ⟨p, hlo⟩ := exists_int_of_isIntegral ha.lo
  obtain ⟨q, hhi⟩ := exists_int_of_isIntegral ha.hi
  have hfits := ha.fits
  unfold Transfer.fits at hfits
  rw [Bool.and_eq_true] at hfits
  have hp := ((denotes_signedMin (by omega) (by omega)).endpoint_le hlo).mp hfits.1
  have hq := (hhi.endpoint_le (denotes_signedMax (by omega) (by omega))).mp hfits.2
  have hpow : (2 : ℤ) ^ (bits - 1) ≤ 2 ^ 25 := pow_le_pow_right₀ (by norm_num) (by omega)
  exact Interval.encloses_of_holds (by omega) (by omega) hlo hhi h

/-! ## 3. Taking a result into its type -/

namespace Transfer

variable {op : BinaryOp} {bits : Nat} {a b i j : Bound} {n : ℤ}

/-- The difference of two integers is not rounded, so ends that are a full turn apart are
seen to be. -/
theorem slips_eq_false (hb : bits ≤ 52) (hi : i.Encloses (2 ^ 52) n) : slips i bits = false := by
  rw [← Bool.not_eq_true]
  intro hslips
  obtain ⟨p, q, hp, hq, hpn, hnq, hlo, hhi⟩ := hi.ends
  unfold slips at hslips
  rw [Bool.and_eq_true, Bool.and_eq_true] at hslips
  obtain ⟨⟨-, hwrapped⟩, hturn⟩ := hslips
  rw [abs_le] at hp hq
  have hspan : Denotes (i.hi - i.lo) (q - p : ℤ) :=
    Interval.denotes_of_nearest (hhi.sub hlo) (by push_cast; rfl) (abs_le.mpr (by omega))
  have hclamp : ∀ {x : Float} {m : ℤ}, Denotes x m → -2 ^ 52 ≤ m ∧ m ≤ 2 ^ 52 → toSigned64 x = m := fun hx hm => by
    unfold toSigned64
    rw [hx.clampToInt, towardZero_intCast]
    omega
  rw [fullTurn, hclamp hhi hq, hclamp hlo hp, beq_iff_eq] at hturn
  unfold wrapped? at hwrapped
  dsimp only at hwrapped
  split_ifs at hwrapped with hcond
  · rw [Bool.and_eq_true] at hcond
    have := (hspan.endpoint_le (denotes_unsignedMax (by omega))).mp hcond.1
    omega
  · cases hwrapped

/-! ## 4. Operations on ranges -/

variable {x y z : BitVec bits}

theorem encloses_exact (hb : bits ≤ 26) (ha : a.Encloses (2 ^ 25) x.toInt) (hb' : b.Encloses (2 ^ 25) y.toInt)
    (hz : wrapping? op x y = some z) (hi : exact op (some bits) a b = some i) :
    i.Encloses (2 ^ 52) (Word.exact op x.toInt y.toInt) := by
  have hdivide : (a.div b).map truncated = some i → i.Encloses (2 ^ 52) (x.toInt.tdiv y.toInt) := by
    intro hi
    obtain ⟨q, hq, rfl⟩ := Option.map_eq_some_iff.mp hi
    exact ha.div hb' hq
  cases op with
  | add => cases hi; exact ha.add hb'
  | sub => cases hi; exact ha.sub hb'
  | mul => exact ha.mul hb' hi
  | sdiv | udiv => exact hdivide hi
  | srem => exact ha.rem hb' (ne_zero_of_wrapping (by simp) hz) hi
  | urem => exact ha.rem hb' (ne_zero_of_wrapping (by simp) hz) hi
  | shl => exact ha.shl hb' hb hi
  | lshr | ashr => exact ha.shr hb' hb hi
  | and => exact ha.and hb' hi
  | or => exact ha.or hb' hi
  | xor => exact ha.xor hb' hi
  | fadd | fsub | fmul | fdiv | frem => cases hz

theorem holds_binaryOn (h0 : 2 ≤ bits) (hb : bits ≤ 26) (ha : a.IsWordRange bits) (hb' : b.IsWordRange bits)
    (hx : a.Holds (whole x.toInt)) (hy : b.Holds (whole y.toInt)) (hz : wrapping? op x y = some z)
    (hj : (binaryOn op (.int bits) a b).value = some j) : j.Holds (whole z.toInt) := by
  obtain ⟨i, hi, hj, hsign⟩ := binaryOn_cases hj
  have hzero : (0 : Extended) = whole 0 := by simp [whole]
  have hnonneg : needsNonneg op = true → 0 ≤ x.toInt ∧ 0 ≤ y.toInt := fun hneeds => by
    obtain ⟨hna, hnb⟩ := hsign hneeds
    rw [← whole_le, ← whole_le, ← hzero]
    exact ⟨Interval.nonneg_of_isNonneg hna hx, Interval.nonneg_of_isNonneg hnb hy⟩
  have henc := encloses_exact hb (ha.encloses h0 hb hx) (hb'.encloses h0 hb hy) hz hi
  rw [toInt_wrapping hz hnonneg]
  exact holds_intoType h0 (by omega) henc.holds (henc.magnitude.trans (by norm_num)) (slips_eq_false (by omega) henc) hj

/-- Of two words in ranges of words of at most 26 bits, every integer operation has its result
in two's complement in the interval that is recorded for it. -/
theorem holds_word_of_binary {lookup : Operand → Option Bound} {l r : Operand} (h0 : 2 ≤ bits) (hb : bits ≤ 26)
    (hl : lookup l = some a) (hr : lookup r = some b) (ha : a.IsWordRange bits) (hb' : b.IsWordRange bits)
    (hx : a.Holds (whole x.toInt)) (hy : b.Holds (whole y.toInt)) (hz : wrapping? op x y = some z)
    (hj : (binary op (.int bits) lookup l r).value = some j) : j.Holds (whole z.toInt) := by
  obtain ⟨a', b', hj, ⟨ha', hb''⟩ | ⟨hswap, ha', hb''⟩⟩ := binary_cases hj
  · cases hl.symm.trans ha'
    cases hr.symm.trans hb''
    exact holds_binaryOn h0 hb ha hb' hx hy hz hj
  · cases hr.symm.trans ha'
    cases hl.symm.trans hb''
    exact holds_binaryOn h0 hb hb' ha hy hx (by rwa [wrapping?_comm hswap]) hj

/-- A byte from 100 to 101, and minus two. -/
def byteRanges : Operand → Option Bound
  | .arg 0 => some ⟨ofInt 100, ofInt 101⟩
  | .arg 1 => some ⟨ofInt (-2), ofInt (-2)⟩
  | _ => none

/-- The products of a byte from 100 to 101 and minus two wrap around. -/
theorem holds_word_of_binary_product :
    (binary .mul (.int 8) byteRanges (.arg 0) (.arg 1)).value = some ⟨ofInt 54, ofInt 56⟩ ∧
    wrapping? .mul (101 : BitVec 8) (-2) = some 54 ∧ (⟨ofInt 54, ofInt 56⟩ : Bound).Holds (whole 54) := by
  have hrecorded : (binary .mul (.int 8) byteRanges (.arg 0) (.arg 1)).value = some ⟨ofInt 54, ofInt 56⟩ := rfl
  have hproduct : wrapping? .mul (101 : BitVec 8) (-2) = some 54 := by decide
  have hx : (⟨ofInt 100, ofInt 101⟩ : Bound).Holds (whole (101 : BitVec 8).toInt) :=
    (Interval.holds_iff_contains (by decide)).mpr rfl
  have hy : (⟨ofInt (-2), ofInt (-2)⟩ : Bound).Holds (whole (-2 : BitVec 8).toInt) :=
    (Interval.holds_iff_contains (by decide)).mpr rfl
  exact ⟨hrecorded, hproduct, holds_word_of_binary (by decide) (by decide) rfl rfl
    ⟨rfl, rfl, rfl⟩ ⟨rfl, rfl, rfl⟩ hx hy hproduct hrecorded⟩

end Transfer

end RangedIR
