/-
RangedIR.Proofs.Analysis.Folding — arithmetic on known words.

An operation on two words has a result in two's complement. The analysis finds that word
from the intervals of the operands as long as every number on the way is at most `2^53`,
which is what binary64 counts to.
-/
import RangedIR.Proofs.Analysis.Transfer
import RangedIR.Proofs.Interval.Single

namespace RangedIR

open Number

/-! ## 1. Operations on words -/

namespace Word

/-- The result of an operation on words. A division by zero, a quotient that has no word and
a shift by the width or more have none, and neither has the arithmetic of fractions. -/
def result? (op : BinaryOp) {bits : Nat} (x y : BitVec bits) : Option (BitVec bits) :=
  match op with
  | .add => some (x + y)
  | .sub => some (x - y)
  | .mul => some (x * y)
  | .sdiv => if y = 0 ∨ x = .intMin bits ∧ y = .allOnes bits then none else some (x.sdiv y)
  | .udiv => if y = 0 then none else some (x / y)
  | .srem => if y = 0 ∨ x = .intMin bits ∧ y = .allOnes bits then none else some (x.srem y)
  | .urem => if y = 0 then none else some (x % y)
  | .shl => if y.toNat < bits then some (x <<< y) else none
  | .lshr => if y.toNat < bits then some (x >>> y) else none
  | .ashr => if y.toNat < bits then some (x.sshiftRight' y) else none
  | .and => some (x &&& y)
  | .or => some (x ||| y)
  | .xor => some (x ^^^ y)
  | .fadd | .fsub | .fmul | .fdiv | .frem => none

/-- The integer that an operation computes before it is taken into its type. -/
def exact (op : BinaryOp) (u v : ℤ) : ℤ :=
  match op with
  | .add => u + v
  | .sub => u - v
  | .mul => u * v
  | .sdiv | .udiv => u.tdiv v
  | .srem | .urem => u.tmod v
  | .shl => u * 2 ^ v.toNat
  | .lshr | .ashr => u / 2 ^ v.toNat
  | .and => (u.toNat &&& v.toNat : Nat)
  | .or => (u.toNat ||| v.toNat : Nat)
  | .xor => (u.toNat ^^^ v.toNat : Nat)
  | .fadd | .fsub | .fmul | .fdiv | .frem => 0

/-- Whether an operation is modelled for words that are not negative only. -/
def needsNonneg (op : BinaryOp) : Bool := op.isBitwise || op.isUnsigned

variable {op : BinaryOp} {bits : Nat} {x y z : BitVec bits}

theorem toInt_of_nonneg (h : 0 ≤ x.toInt) : x.toInt = x.toNat :=
  BitVec.toInt_eq_toNat_of_msb (by rw [BitVec.msb_eq_toInt]; simpa using h)

theorem toNat_of_nonneg (h : 0 ≤ x.toInt) : x.toInt.toNat = x.toNat := by
  rw [toInt_of_nonneg h, Int.toNat_natCast]

/-- A division that has a result is not by zero. -/
theorem ne_zero_of_result (hop : op = .sdiv ∨ op = .udiv ∨ op = .srem ∨ op = .urem) (hz : result? op x y = some z) :
    y.toInt ≠ 0 := by
  have hy : y ≠ 0 := by
    rintro rfl
    rcases hop with rfl | rfl | rfl | rfl <;> simp [result?] at hz
  exact fun h => hy (BitVec.toInt_inj.mp (by rw [h]; exact BitVec.toInt_zero.symm))

/-- The result in two's complement is the exact one taken into the width. -/
theorem toInt_result (hz : result? op x y = some z) (hsign : needsNonneg op = true → 0 ≤ x.toInt ∧ 0 ≤ y.toInt) :
    z.toInt = (exact op x.toInt y.toInt).bmod (2 ^ bits) := by
  have hbmod : ∀ {w : BitVec bits} {n : ℤ}, (w.toNat : ℤ) = n → w.toInt = n.bmod (2 ^ bits) := by
    rintro w n rfl
    exact w.toInt_eq_toNat_bmod
  cases op with
  | add => cases hz; exact BitVec.toInt_add x y
  | sub => cases hz; exact BitVec.toInt_sub
  | mul => cases hz; exact BitVec.toInt_mul x y
  | sdiv =>
    obtain ⟨-, ⟨⟩⟩ := Option.ite_none_left_eq_some.mp hz
    exact BitVec.toInt_sdiv x y
  | srem =>
    obtain ⟨-, ⟨⟩⟩ := Option.ite_none_left_eq_some.mp hz
    rw [← BitVec.toInt_bmod_cancel, BitVec.toInt_srem]
    rfl
  | udiv =>
    obtain ⟨hx, hy⟩ := hsign rfl
    obtain ⟨-, ⟨⟩⟩ := Option.ite_none_left_eq_some.mp hz
    refine hbmod ?_
    rw [exact, toInt_of_nonneg hx, toInt_of_nonneg hy, BitVec.toNat_udiv, Int.ofNat_tdiv]
  | urem =>
    obtain ⟨hx, hy⟩ := hsign rfl
    obtain ⟨-, ⟨⟩⟩ := Option.ite_none_left_eq_some.mp hz
    refine hbmod ?_
    rw [exact, toInt_of_nonneg hx, toInt_of_nonneg hy, BitVec.toNat_umod, Int.ofNat_tmod]
  | shl =>
    obtain ⟨hx, hy⟩ := hsign rfl
    obtain ⟨-, ⟨⟩⟩ := Option.ite_none_right_eq_some.mp hz
    rw [BitVec.shiftLeft_eq', BitVec.toInt_shiftLeft, exact, toNat_of_nonneg hy, toInt_of_nonneg hx,
      Nat.shiftLeft_eq]
    push_cast
    rfl
  | lshr =>
    obtain ⟨hx, hy⟩ := hsign rfl
    obtain ⟨-, ⟨⟩⟩ := Option.ite_none_right_eq_some.mp hz
    refine hbmod ?_
    rw [BitVec.ushiftRight_eq', BitVec.toNat_ushiftRight, exact, toNat_of_nonneg hy, toInt_of_nonneg hx,
      Nat.shiftRight_eq_div_pow]
    push_cast
    rfl
  | ashr =>
    obtain ⟨hx, hy⟩ := hsign rfl
    obtain ⟨-, ⟨⟩⟩ := Option.ite_none_right_eq_some.mp hz
    rw [← BitVec.toInt_bmod_cancel, BitVec.toInt_sshiftRight', Int.shiftRight_eq_div_pow, exact, toNat_of_nonneg hy]
    push_cast
    rfl
  | and =>
    obtain ⟨hx, hy⟩ := hsign rfl
    cases hz
    refine hbmod ?_
    rw [exact, toNat_of_nonneg hx, toNat_of_nonneg hy, BitVec.toNat_and]
  | or =>
    obtain ⟨hx, hy⟩ := hsign rfl
    cases hz
    refine hbmod ?_
    rw [exact, toNat_of_nonneg hx, toNat_of_nonneg hy, BitVec.toNat_or]
  | xor =>
    obtain ⟨hx, hy⟩ := hsign rfl
    cases hz
    refine hbmod ?_
    rw [exact, toNat_of_nonneg hx, toNat_of_nonneg hy, BitVec.toNat_xor]
  | fadd | fsub | fmul | fdiv | frem => cases hz

/-- No number of an operation is larger than binary64 counts, and a single bit is not left. -/
structure IsCounted (op : BinaryOp) {bits : Nat} (x y : BitVec bits) : Prop where
  left : |x.toInt| ≤ 2 ^ 53
  right : |y.toInt| ≤ 2 ^ 53
  result : |exact op x.toInt y.toInt| ≤ 2 ^ 53
  bit : bits = 1 → InRange 1 (exact op x.toInt y.toInt)

/-- The operands of some operations can be exchanged. -/
theorem result?_comm (hop : op.isCommutative = true) (x y : BitVec bits) : result? op x y = result? op y x := by
  cases op with
  | add => exact congrArg some (BitVec.add_comm x y)
  | mul => exact congrArg some (BitVec.mul_comm x y)
  | and => exact congrArg some (BitVec.and_comm x y)
  | or => exact congrArg some (BitVec.or_comm x y)
  | xor => exact congrArg some (BitVec.xor_comm x y)
  | fadd | fmul => rfl
  | sub | fsub | sdiv | udiv | fdiv | srem | urem | frem | shl | lshr | ashr => cases hop

theorem exact_comm (hop : op.isCommutative = true) (u v : ℤ) : exact op u v = exact op v u := by
  cases op with
  | add => exact add_comm u v
  | mul => exact mul_comm u v
  | and => exact congrArg Nat.cast (Nat.land_comm _ _)
  | or => exact congrArg Nat.cast (Nat.lor_comm _ _)
  | xor => exact congrArg Nat.cast (Nat.xor_comm _ _)
  | fadd | fmul => rfl
  | sub | fsub | sdiv | udiv | fdiv | srem | urem | frem | shl | lshr | ashr => cases hop

theorem IsCounted.swap (hop : op.isCommutative = true) (h : IsCounted op x y) : IsCounted op y x := by
  have hexact := exact_comm hop x.toInt y.toInt
  exact ⟨h.right, h.left, hexact ▸ h.result, hexact ▸ h.bit⟩

end Word

open Word

/-! ## 2. Taking a result into its type -/

namespace Transfer

variable {op : BinaryOp} {bits : Nat} {a b i j : Bound} {n : ℤ}

theorem abs_bmod_le_abs (n : ℤ) {m : Nat} (hm : 0 < m) : |n.bmod m| ≤ |n| := by
  have h1 := Int.le_bmod (x := n) hm
  have h2 := Int.bmod_lt (x := n) hm
  by_cases h : -((m : ℤ) / 2) ≤ n ∧ n < ((m : ℤ) + 1) / 2
  · rw [Int.bmod_eq_of_le h.1 h.2]
  · rw [abs_le]
    rcases abs_cases n with ⟨hn, h0⟩ | ⟨hn, h0⟩ <;> omega

/-- A single integer is wrapped as it should be. -/
theorem denotes_wrapSigned_of_pins {x : Float} (hx : Denotes x n) (hn : |n| ≤ 2 ^ 53) (hb : bits ≤ 64) :
    Denotes (wrapSigned x bits) ((n.bmod (2 ^ bits) : ℤ) : ℚ) := by
  have hsmall := (abs_bmod_le_abs n (show 0 < 2 ^ bits by positivity)).trans hn
  have hsigned : toSigned64 x = n := by
    unfold toSigned64
    rw [hx.clampToInt, towardZero_intCast]
    rw [abs_le] at hn
    omega
  unfold wrapSigned
  dsimp only
  rw [hsigned]
  split_ifs with h64
  · -- a word of 64 bits is not wrapped
    obtain rfl : bits = 64 := by omega
    rw [abs_le] at hn
    rw [Int.bmod_eq_of_le (by omega) (by omega)]
    exact denotes_ofInt (by rw [abs_le]; omega)
  · exact denotes_ofInt hsmall

theorem pins_intoType (h0 : 1 ≤ bits) (hb : bits ≤ 64) (hi : i.Pins n) (hn : |n| ≤ 2 ^ 53)
    (hbit : bits = 1 → InRange 1 n) (hj : (intoType op (.int bits) i).value = some j) :
    j.Pins (n.bmod (2 ^ bits)) := by
  obtain ⟨hfits, rfl⟩ | ⟨-, hw⟩ := intoType_cases hj
  · have hsame : n.bmod (2 ^ bits) = n := by
      by_cases hone : bits = 1
      · subst hone
        exact (hbit rfl).bmod le_rfl
      · by_cases hwide : bits ≤ 54
        · exact holds_fits h0 hwide hi.holds (hfits.resolve_left (by omega))
        · refine InRange.bmod h0 ?_
          have hpow : (2 : ℤ) ^ 54 ≤ 2 ^ (bits - 1) := pow_le_pow_right₀ (by norm_num) (by omega)
          rw [abs_le] at hn
          constructor <;> omega
    rwa [hsame]
  · unfold wrapped? at hw
    dsimp only at hw
    split_ifs at hw
    cases hw
    exact ⟨denotes_wrapSigned_of_pins hi.lo hn hb, denotes_wrapSigned_of_pins hi.hi hn hb⟩

/-- A result that is recorded was found and taken into its type, from intervals that are not
negative where the operation needs that. -/
theorem binaryOn_cases (hj : (binaryOn op (.int bits) a b).value = some j) :
    ∃ i, exact op (some bits) a b = some i ∧ (intoType op (.int bits) i).value = some j ∧
      (needsNonneg op = true → a.isNonneg = true ∧ b.isNonneg = true) := by
  unfold binaryOn at hj
  dsimp only at hj
  split_ifs at hj with hbitwise hunsigned hshift
  · cases hj
  · cases hj
  · cases hj
  · cases hexact : exact op (Ty.int bits).intBits? a b with
    | none =>
      rw [hexact] at hj
      cases hj
    | some i =>
      rw [hexact] at hj
      refine ⟨i, hexact, hj, fun hneeds => ?_⟩
      rw [← Bool.and_eq_true]
      by_contra hneg
      rw [needsNonneg, Bool.or_eq_true] at hneeds
      rw [Bool.not_eq_true] at hneg
      rcases hneeds with h | h
      · exact hbitwise (by rw [h, hneg]; rfl)
      · exact hunsigned (by rw [h, hneg]; rfl)

variable {lookup : Operand → Option Bound}

/-- The operands of an operation are exchanged only where that does not matter. -/
theorem binary_cases {ty : Ty} {l r : Operand}
    (hj : (binary op ty lookup l r).value = some j) : ∃ a b, (binaryOn op ty a b).value = some j ∧
      (lookup l = some a ∧ lookup r = some b ∨ op.isCommutative = true ∧ lookup r = some a ∧ lookup l = some b) := by
  unfold binary at hj
  dsimp only at hj
  split at hj
  · rename_i a b ha hb
    refine ⟨a, b, hj, ?_⟩
    split_ifs at ha hb with hswap
    · simp only [Bool.and_eq_true] at hswap
      exact .inr ⟨hswap.2, ha, hb⟩
    · exact .inl ⟨ha, hb⟩
  · cases hj

/-! ## 3. Operations on single words -/

variable {x y z : BitVec bits}

/-- The result of an operation on two single words is the exact one. -/
theorem pins_exact (hb : bits ≤ 64) (ha : a.Pins x.toInt) (hb' : b.Pins y.toInt) (hz : result? op x y = some z)
    (hc : IsCounted op x y) (hi : exact op (some bits) a b = some i) : i.Pins (Word.exact op x.toInt y.toInt) := by
  have hdivide : op = .sdiv ∨ op = .udiv → (a.div b).map truncated = some i → i.Pins (x.toInt.tdiv y.toInt) := by
    intro hop hi
    obtain ⟨q, hq, rfl⟩ := Option.map_eq_some_iff.mp hi
    have h0 := ne_zero_of_result (hop.imp_right Or.inl) hz
    obtain ⟨hlo, hhi⟩ := ha.div hb' hc.left hc.right h0 hq
    exact Interval.pins_span hlo hhi
  have hremainder : op = .srem ∨ op = .urem → a.rem true b = some i → i.Pins (x.toInt.tmod y.toInt) := fun hop hi =>
    ha.rem hb' hc.left (ne_zero_of_result (.inr (.inr hop)) hz) hi
  have hbits : ∀ {f : Nat → Nat → Nat} {wide}, |((f x.toInt.toNat y.toInt.toNat : Nat) : ℤ)| ≤ 2 ^ 53 →
      Interval.bitwise f wide a b = some i → i.Pins (f x.toInt.toNat y.toInt.toNat) := by
    intro f wide hsmall hi
    rw [Nat.abs_cast] at hsmall
    exact ha.bitwise hb' hc.left hc.right (by exact_mod_cast hsmall) hi
  have hresult := hc.result
  cases op with
  | add => cases hi; exact ha.add hb' hresult
  | sub => cases hi; exact ha.sub hb' hresult
  | mul => exact ha.mul hb' hresult hi
  | sdiv => exact hdivide (.inl rfl) hi
  | udiv => exact hdivide (.inr rfl) hi
  | srem => exact hremainder (.inl rfl) hi
  | urem => exact hremainder (.inr rfl) hi
  | shl => exact ha.shl hb hb' hresult hi
  | lshr | ashr => exact ha.shr hb hb' hc.left hi
  | and =>
    have hi : a.and b = some i := hi
    exact hbits hresult hi
  | or =>
    have hi : a.or b = some i := hi
    exact hbits hresult hi
  | xor =>
    have hi : a.xor b = some i := hi
    exact hbits hresult hi
  | fadd | fsub | fmul | fdiv | frem => cases hz

theorem pins_binaryOn (h0 : 1 ≤ bits) (hb : bits ≤ 64) (ha : a.Pins x.toInt) (hb' : b.Pins y.toInt)
    (hz : result? op x y = some z) (hc : IsCounted op x y) (hj : (binaryOn op (.int bits) a b).value = some j) :
    j.Pins z.toInt := by
  obtain ⟨i, hi, hj, hsign⟩ := binaryOn_cases hj
  rw [ha.isNonneg, hb'.isNonneg] at hsign
  rw [toInt_result hz hsign]
  exact pins_intoType h0 hb (pins_exact hb ha hb' hz hc hi) hc.result hc.bit hj

/-- An operation on operands that are known to be two words yields the word that it has in
two's complement, or nothing. -/
theorem pins_binary {l r : Operand} (h0 : 1 ≤ bits) (hb : bits ≤ 64)
    (hl : ∀ i, lookup l = some i → i.Pins x.toInt) (hr : ∀ i, lookup r = some i → i.Pins y.toInt)
    (hz : result? op x y = some z) (hc : IsCounted op x y)
    (hj : (binary op (.int bits) lookup l r).value = some j) : j.Pins z.toInt := by
  obtain ⟨a, b, hj, ⟨ha, hb'⟩ | ⟨hswap, ha, hb'⟩⟩ := binary_cases hj
  · exact pins_binaryOn h0 hb (hl a ha) (hr b hb') hz hc hj
  · exact pins_binaryOn h0 hb (hr a ha) (hl b hb') (by rwa [result?_comm hswap]) (hc.swap hswap) hj

end Transfer

end RangedIR
