/-
RangedIR.Proofs.Interval.Ordered — operations keep the ends in order.

Rounding keeps the order of sums, so the ends of a sum of intervals are in order as soon as
they are numbers. They are none when two opposite infinities are added. All other operations
check their ends, or choose them by their order.
-/
import RangedIR.Interval.Word
import RangedIR.Proofs.Interval.Membership

namespace RangedIR

open Number

namespace Number

/-! ## 1. Sums -/

variable {x y x' y' : Float} {s : Bool}

/-- Two numbers in order are finite, unless the first is the least or the second the greatest
number. -/
theorem le_cases (h : x ≤ y) :
    datum x = .infinite true ∨ datum y = .infinite false ∨ ∃ p q, p ≤ q ∧ Denotes x p ∧ Denotes y q := by
  rw [le_iff] at h
  obtain ⟨hx, hy, hle⟩ := h
  rcases hx.cases with ⟨s, hs⟩ | ⟨p, hp⟩ <;> rcases hy.cases with ⟨t, ht⟩ | ⟨q, hq⟩
  · rw [exact_of_infinite hs, exact_of_infinite ht] at hle
    cases s <;> cases t <;> simp_all
  · rw [exact_of_infinite hs, hq.exact] at hle
    cases s
    · simp at hle
    · exact .inl hs
  · rw [exact_of_infinite ht, hp.exact] at hle
    cases t
    · exact .inr (.inl ht)
    · simp at hle
  · rw [hp.exact, hq.exact, coe_le_coe] at hle
    exact .inr (.inr ⟨p, q, hle, hp, hq⟩)

theorem isNumber_neg_iff : IsNumber (-x) ↔ IsNumber x := by
  unfold IsNumber
  rw [datum_neg]
  cases datum x <;> simp [Datum.negate]

theorem neg_le_neg_of_le (h : x ≤ y) : -y ≤ -x := by
  have hnum := le_iff.mp h
  refine le_iff.mpr ⟨isNumber_neg_iff.mpr hnum.2.1, isNumber_neg_iff.mpr hnum.1, ?_⟩
  rcases le_cases h with hinf | hinf | ⟨p, q, hle, hp, hq⟩
  · rw [exact_of_infinite (x := -x) (s := false) (by rw [datum_neg, hinf]; rfl)]
    exact le_top
  · rw [exact_of_infinite (x := -y) (s := true) (by rw [datum_neg, hinf]; rfl)]
    exact bot_le
  · rw [hp.neg.exact, hq.neg.exact, coe_le_coe]
    exact neg_le_neg hle

/-- Two opposite infinities, which have no sum. -/
def OppositeInfinities (x y : Float) : Prop := ∃ s, datum x = .infinite s ∧ datum y = .infinite (!s)

theorem not_isNumber_add (h : OppositeInfinities x y) : ¬ IsNumber (x + y) := by
  obtain ⟨s, hx, hy⟩ := h
  simp [IsNumber, (datum_add_infinite hx y).1, hy, Datum.plusInfinity]

theorem add_infinite_of_not_opposite (hx : IsNumber x) (hy : IsNumber y) (hopp : ¬ OppositeInfinities x y)
    (h : datum x = .infinite s ∨ datum y = .infinite s) : datum (x + y) = .infinite s := by
  rcases h with h | h
  · exact (add_infinite h hy fun h' => hopp ⟨s, h, h'⟩).1
  · exact (add_infinite h hx fun h' => hopp ⟨!s, h', by simpa using h⟩).2

theorem isNumber_add_iff (hx : IsNumber x) (hy : IsNumber y) : IsNumber (x + y) ↔ ¬ OppositeInfinities x y := by
  refine ⟨fun h hopp => not_isNumber_add hopp h, fun hopp => ?_⟩
  rcases hx.cases with ⟨s, hs⟩ | ⟨p, hp⟩
  · simp [IsNumber, add_infinite_of_not_opposite hx hy hopp (.inl hs)]
  rcases hy.cases with ⟨s, hs⟩ | ⟨q, hq⟩
  · simp [IsNumber, add_infinite_of_not_opposite hx hy hopp (.inr hs)]
  · exact (hp.add hq).1

/-- Sums of numbers keep the order. -/
theorem add_le_add_iff (hx : x ≤ x') (hy : y ≤ y') : x + y ≤ x' + y' ↔ ¬ OppositeInfinities x y ∧ ¬ OppositeInfinities x' y' := by
  have hxn := le_iff.mp hx
  have hyn := le_iff.mp hy
  rw [le_iff, isNumber_add_iff hxn.1 hyn.1, isNumber_add_iff hxn.2.1 hyn.2.1]
  refine ⟨fun h => ⟨h.1, h.2.1⟩, fun h => ⟨h.1, h.2, ?_⟩⟩
  have hbot : datum x = .infinite true ∨ datum y = .infinite true → exact (x + y) ≤ exact (x' + y') := by
    intro hinf
    rw [exact_of_infinite (add_infinite_of_not_opposite hxn.1 hyn.1 h.1 hinf)]
    exact bot_le
  have htop : datum x' = .infinite false ∨ datum y' = .infinite false → exact (x + y) ≤ exact (x' + y') := by
    intro hinf
    rw [exact_of_infinite (add_infinite_of_not_opposite hxn.2.1 hyn.2.1 h.2 hinf)]
    exact le_top
  rcases le_cases hx with hinf | hinf | ⟨p, p', hpp, hp, hp'⟩
  · exact hbot (.inl hinf)
  · exact htop (.inl hinf)
  rcases le_cases hy with hinf | hinf | ⟨q, q', hqq, hq, hq'⟩
  · exact hbot (.inr hinf)
  · exact htop (.inr hinf)
  · rw [(hp.add hq).2, (hp'.add hq').2]
    exact nearest_mono (add_le_add hpp hqq)

end Number

namespace Interval

variable {a b c : Bound}

/-! ## 2. Checked ends -/

theorem le_of_of? {lo hi : Float} (h : of? lo hi = some c) : c.lo ≤ c.hi := by
  unfold of? at h
  split_ifs at h with hnum
  cases h
  simp only [Bool.and_eq_true, isNumber_true_iff, Bool.not_eq_true', ← Bool.not_eq_true, lt_true_iff] at hnum
  exact le_iff.mpr ⟨hnum.1.1, hnum.1.2, not_lt.mp fun hlt => hnum.2 ⟨hnum.1.2, hnum.1.1, hlt⟩⟩

/-- The least and the greatest of some ends, of which one is a number. -/
theorem lesser_le_greater {x y x' y' : Float} (hx : x ≤ x') : Endpoint.lesser x y ≤ Endpoint.greater x' y' := by
  rw [le_iff] at *
  have hlo := (below_lesser (b := y)).mpr (.inl ⟨hx.1, le_refl (exact x)⟩)
  have hhi := (above_greater (b := y')).mpr (.inl ⟨hx.2.1, le_refl (exact x')⟩)
  exact ⟨hlo.1, hhi.1, hlo.2.trans (hx.2.2.trans hhi.2)⟩

theorem le_of_ofCorners {w x y z : Float} (h : ofCorners w x y z = some c) : c.lo ≤ c.hi := by
  unfold ofCorners at h
  split_ifs at h with hnum
  cases h
  simp only [Bool.and_eq_true] at hnum
  exact lesser_le_greater (lesser_le_greater (lesser_le_greater (of_decide_eq_true hnum.1.1.1)))

theorem le_of_rem {integral : Bool} (ha : a.lo ≤ a.hi) (h : a.rem integral b = some c) : c.lo ≤ c.hi := by
  unfold rem at h
  extract_lets r least limit at h
  split_ifs at h
  · exact le_of_of? h
  · cases h
    exact ha
  all_goals exact le_of_of? h

theorem le_of_bitwise {f : Nat → Nat → Nat} {wide : Bound → Bound → Option Bound}
    (hwide : wide a b = some c → c.lo ≤ c.hi) (h : bitwise f wide a b = some c) : c.lo ≤ c.hi := by
  unfold bitwise at h
  split_ifs at h
  · cases h
    have hnum := (isNearest_ofInt (f (toUnsigned64 a.lo) (toUnsigned64 b.lo))).1
    exact le_iff.mpr ⟨hnum, hnum, le_rfl⟩
  · exact hwide h

/-! ## 3. All operations -/

/-- Neither the lower nor the upper ends of two intervals are opposite infinities. -/
def Addable (a b : Bound) : Prop := ¬ OppositeInfinities a.lo b.lo ∧ ¬ OppositeInfinities a.hi b.hi

theorem sub_eq_add_neg (a b : Bound) : a.sub b = a.add b.neg := by
  simp [sub, add, neg, Number.sub_eq_add]

/-- **Ends in order.** If the ends of two intervals are in order, so are those of the hull, of the
negation, and of every product, quotient, remainder, shift and bitwise combination that there is.
Those of the sum and of the difference are, exactly if no opposite infinities are added. -/
theorem ends_in_order (ha : a.lo ≤ a.hi) (hb : b.lo ≤ b.hi) (integral : Bool) (bits : Nat) :
    (a.hull b).lo ≤ (a.hull b).hi ∧ a.neg.lo ≤ a.neg.hi ∧
      ((a.add b).lo ≤ (a.add b).hi ↔ Addable a b) ∧ ((a.sub b).lo ≤ (a.sub b).hi ↔ Addable a b.neg) ∧
      ∀ c, some c ∈ [a.mul b, a.div b, a.rem integral b, a.shl b bits, a.shr b bits, a.and b, a.or b, a.xor b] →
        c.lo ≤ c.hi := by
  have hneg : b.neg.lo ≤ b.neg.hi := neg_le_neg_of_le hb
  refine ⟨lesser_le_greater ha, neg_le_neg_of_le ha, add_le_add_iff ha hb, ?_, ?_⟩
  · rw [sub_eq_add_neg]
    exact add_le_add_iff ha hneg
  · intro c hc
    simp only [List.mem_cons, List.not_mem_nil, or_false] at hc
    rcases hc with h | h | h | h | h | h | h | h
    · exact le_of_ofCorners h.symm
    · unfold div at h
      split_ifs at h
      exact le_of_ofCorners h.symm
    · exact le_of_rem ha h.symm
    · unfold shl at h
      extract_lets lo hi at h
      split_ifs at h
      exact le_of_of? h.symm
    · unfold shr at h
      split_ifs at h
      exact le_of_of? h.symm
    · exact le_of_bitwise le_of_of? h.symm
    · exact le_of_bitwise le_of_of? h.symm
    · exact le_of_bitwise le_of_of? h.symm

/-- The numbers from zero on. -/
def halfLine : Bound := ⟨0.0, infinity⟩

/-- An interval that ends at an infinity has a difference with itself. -/
theorem ends_in_order_difference :
    halfLine.lo ≤ halfLine.hi ∧ (halfLine.sub halfLine).lo ≤ (halfLine.sub halfLine).hi := by
  have hle : halfLine.lo ≤ halfLine.hi := by decide
  refine ⟨hle, (ends_in_order hle hle false 0).2.2.2.1.mpr ?_⟩
  unfold Addable OppositeInfinities
  decide

/-- A single infinity has none: the ends are no numbers. -/
theorem infinity_minus_infinity :
    (singleton infinity).lo ≤ (singleton infinity).hi ∧
      ¬ ((singleton infinity).sub (singleton infinity)).lo ≤ ((singleton infinity).sub (singleton infinity)).hi := by
  decide

end Interval

end RangedIR
