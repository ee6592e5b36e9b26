/-
RangedIR.Proofs.Code.Literal — the numbers that literals write.

An integer literal is computed with as a binary64 number, which is the number that is
written only up to a limit. The literal found for a single number writes that number.
-/
import RangedIR.Code.Constant
import RangedIR.Proofs.Interval.Word

namespace RangedIR

open Number

/-! ## 1. The number of a literal -/

/-- An end of the interval is a number. -/
def Interval.HasNumber (i : Bound) : Prop := IsNumber i.lo ∨ IsNumber i.hi

namespace Constant

/-- The exact number that is written. -/
def number? : Constant → Option Extended
  | int n => some (whole n)
  | float x => if IsNumber x then some (exact x) else none
  | bool b => some (whole (if b then 1 else 0))

/-- Whether the number that is written is the one computed with. -/
def IsExact : Constant → Prop
  | int n => exact (ofInt n) = whole n
  | _ => True

/-- The interval of a literal holds the number that is written. -/
theorem holds_number {c : Constant} (hc : c.IsExact) (hnum : (Interval.singleton c.value : Bound).HasNumber) :
    ∃ x, c.number? = some x ∧ (Interval.singleton c.value : Bound).Holds x := by
  have hx : IsNumber c.value := hnum.elim id id
  have hholds : (Interval.singleton c.value : Bound).Holds (exact c.value) := ⟨⟨hx, le_rfl⟩, hx, le_rfl⟩
  cases c with
  | int n => exact ⟨_, rfl, hc ▸ hholds⟩
  | float x => exact ⟨_, if_pos hx, hholds⟩
  | bool b =>
    refine ⟨_, rfl, ?_⟩
    cases b
    · simpa [whole, value] using (Interval.holds_singleton denotes_zero).mpr rfl
    · simpa [whole, value] using (Interval.holds_singleton denotes_one).mpr rfl

/-- Rounding takes no integer to zero. -/
theorem exact_ofInt_eq_zero {n : ℤ} : exact (ofInt n) = whole 0 ↔ n = 0 := by
  have hmono : ∀ {m n : ℤ}, m ≤ n → exact (ofInt m) ≤ exact (ofInt n) := by
    intro m n h
    rw [(isNearest_ofInt m).2, (isNearest_ofInt n).2]
    exact nearest_mono (by exact_mod_cast h)
  have hsmall : ∀ {m : ℤ}, |m| ≤ 1 → exact (ofInt m) = whole m := fun h => (denotes_ofInt (by omega)).exact
  constructor
  · intro h
    by_contra hn
    rcases lt_or_gt_of_ne hn with hneg | hpos
    · have := hmono (show n ≤ -1 by omega)
      rw [h, hsmall (by simp), whole_le] at this
      omega
    · have := hmono (show 1 ≤ n by omega)
      rw [h, hsmall (by simp), whole_le] at this
      omega
  · rintro rfl
    exact hsmall (by simp)

/-- A literal is tested for zero as it is written. -/
theorem number?_eq_zero_iff (c : Constant) : c.number? = some (whole 0) ↔ (c.value == 0.0) = true := by
  have hzero : exact 0.0 = whole 0 := by rw [denotes_zero.exact, whole, Int.cast_zero]
  rw [beq_iff, hzero]
  cases c with
  | int n =>
    simp only [number?, value, Option.some.injEq, exact_ofInt_eq_zero, (isNearest_ofInt n).1,
      denotes_zero.isNumber, true_and]
    exact ⟨whole_injective, congrArg whole⟩
  | float x =>
    simp only [number?, value, denotes_zero.isNumber, true_and]
    split_ifs with hx <;> simp [hx]
  | bool b =>
    cases b
    · simp [number?, value, denotes_zero.isNumber, hzero]
    · have hone : exact 1.0 = whole 1 := by rw [denotes_one.exact, whole, Int.cast_one]
      simp only [number?, value, if_true, hone, Option.some.injEq]
      exact iff_of_false (fun h => by simpa using whole_injective h) fun h => by simpa using whole_injective h.2.2

/-! ## 2. The literal of a number -/

theorem denotes_signed64Min : Denotes forType?.signed64Min ((-2 ^ 63 : ℤ) : ℚ) :=
  ⟨true, 2 ^ 52, 11, by decide, by norm_num [scaled]⟩

/-- A binary64 number that passes for a 64-bit integer is one. -/
theorem exists_int {x : Float} (hint : isIntegral x = true) (hlo : forType?.signed64Min ≤ x)
    (hhi : x < -forType?.signed64Min) :
    ∃ n : ℤ, Denotes x n ∧ toSigned64 x = n ∧ -9223372036854775808 ≤ n ∧ n ≤ 9223372036854775807 := by
  have hmax : Denotes (-forType?.signed64Min) ((2 ^ 63 : ℤ) : ℚ) := by
    simpa using denotes_signed64Min.neg
  obtain ⟨n, hn⟩ := exists_int_of_isIntegral hint
  obtain ⟨-, -, hlo⟩ := le_iff.mp hlo
  obtain ⟨-, -, hhi⟩ := lt_iff.mp hhi
  rw [denotes_signed64Min.exact, hn.exact] at hlo
  rw [hmax.exact, hn.exact] at hhi
  have h1 : -2 ^ 63 ≤ n := whole_le.mp hlo
  have h2 : n < 2 ^ 63 := not_le.mp fun h => absurd (whole_le.mpr h) (not_le.mpr hhi)
  refine ⟨n, hn, le_antisymm ?_ ?_, h1, Int.le_sub_one_of_lt h2⟩
  · exact toSigned64_le (hn.below_iff.mpr le_rfl) h1
  · exact le_toSigned64 (hn.above_iff.mpr le_rfl) h2

/-- The literals that a number can have: a truth value, an integer or the number itself. -/
theorem forType?_cases {ty : Ty} {x : Float} {c : Constant} (h : forType? ty x = some c) :
    (ty = .int 1 ∧ ((x == 0.0) = true ∨ (x == 1.0) = true) ∧ c = bool (x == 1.0)) ∨
      (∃ bits n, ty = .int bits ∧ (bits = 1 → ¬ ((x == 0.0) = true ∨ (x == 1.0) = true)) ∧ Denotes x (n : ℤ) ∧
        -9223372036854775808 ≤ n ∧ n ≤ 9223372036854775807 ∧ c = int n) ∨
      ty.isFloating = true ∧ c = float x := by
  unfold forType? at h
  split at h
  · next bits =>
    split_ifs at h with hbool hint
    · obtain ⟨hbits, hx⟩ := (Bool.and_eq_true _ _).mp hbool
      exact .inl ⟨by rw [beq_iff_eq.mp hbits], by simpa using hx, (Option.some.inj h).symm⟩
    · simp only [Bool.and_eq_true, decide_eq_true_eq] at hint
      obtain ⟨n, hn, heq, hlo, hhi⟩ := exists_int hint.1.1 hint.1.2 hint.2
      exact .inr (.inl ⟨bits, n, rfl, fun hbits hx => hbool (by simpa [hbits] using hx), hn, hlo, hhi,
        heq ▸ (Option.some.inj h).symm⟩)
  · split_ifs at h
    exact .inr (.inr ⟨rfl, (Option.some.inj h).symm⟩)
  · split_ifs at h
    exact .inr (.inr ⟨rfl, (Option.some.inj h).symm⟩)
  · cases h

/-- The literal of a type with a value writes that value and is computed with as that value. -/
theorem number?_of_forType? {ty : Ty} {x : Float} {c : Constant} (hx : IsNumber x) (h : forType? ty x = some c) :
    c.number? = some (exact x) ∧ (c.value == x) = true := by
  obtain ⟨-, hbool, rfl⟩ | ⟨-, n, -, -, hn, -, -, rfl⟩ | ⟨-, rfl⟩ := forType?_cases h
  · cases hone : x == 1.0 with
    | true =>
      have hexact := (beq_iff.mp hone).2.2
      refine ⟨?_, beq_iff.mpr ⟨denotes_one.isNumber, hx, hexact.symm⟩⟩
      rw [hexact, denotes_one.exact]
      simp [number?, whole]
    | false =>
      have hexact := (beq_iff.mp (hbool.resolve_right (by simp [hone]))).2.2
      refine ⟨?_, beq_iff.mpr ⟨denotes_zero.isNumber, hx, hexact.symm⟩⟩
      rw [hexact, denotes_zero.exact]
      simp [number?, whole]
  · have hvalue := (isNearest_ofInt n).denotes hn.representable hn.abs_lt_limit
    refine ⟨by rw [hn.exact]; rfl, beq_iff.mpr ⟨hvalue.isNumber, hx, hvalue.exact.trans hn.exact.symm⟩⟩
  · exact ⟨if_pos hx, beq_iff.mpr ⟨hx, hx, rfl⟩⟩

end Constant

end RangedIR
