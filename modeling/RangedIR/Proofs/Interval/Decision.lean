/-
RangedIR.Proofs.Interval.Decision — what two intervals say about a comparison is all that
can be said.

A comparison is decided by tests on the four ends. Since every number of an interval lies
between its ends and the ends are numbers of it, the tests succeed exactly if the
comparison has the same outcome for all numbers of the two intervals.
-/
import RangedIR.Proofs.Interval.Membership

namespace RangedIR

open Number

/-! ## 1. Predicates -/

/-- What an integer predicate says about two exact numbers. The unsigned ones say it about
numbers that are not negative. -/
def IntPredicate.Holds : IntPredicate → Extended → Extended → Prop
  | .eq, x, y => x = y
  | .ne, x, y => x ≠ y
  | .ugt, x, y | .sgt, x, y => y < x
  | .uge, x, y | .sge, x, y => y ≤ x
  | .ult, x, y | .slt, x, y => x < y
  | .ule, x, y | .sle, x, y => x ≤ y

/-- What a floating-point predicate says about two patterns. The unordered ones deny the
opposite ordered ones, so they hold whenever one of the patterns is no number. -/
def FloatPredicate.Holds : FloatPredicate → Float → Float → Prop
  | .never, _, _ => False
  | .oeq, x, y => (x == y) = true
  | .ogt, x, y => y < x
  | .oge, x, y => y ≤ x
  | .olt, x, y => x < y
  | .ole, x, y => x ≤ y
  | .one, x, y => x < y ∨ y < x
  | .ord, x, y => IsNumber x ∧ IsNumber y
  | .ueq, x, y => ¬ (x < y ∨ y < x)
  | .ugt, x, y => ¬ x ≤ y
  | .uge, x, y => ¬ x < y
  | .ult, x, y => ¬ y ≤ x
  | .ule, x, y => ¬ y < x
  | .une, x, y => ¬ (x == y) = true
  | .uno, x, y => ¬ (IsNumber x ∧ IsNumber y)
  | .always, _, _ => True

theorem IntPredicate.holds_iff (p : IntPredicate) (x y : Extended) : p.Holds x y ↔ p.order.Holds x y := by
  cases p <;> exact Iff.rfl

/-- Of numbers, a predicate says what its order says about their exact values. -/
theorem FloatPredicate.holds_iff {p : FloatPredicate} {o : Order} (ho : p.order? = some o) {x y : Float}
    (hx : IsNumber x) (hy : IsNumber y) : p.Holds x y ↔ o.Holds (exact x) (exact y) := by
  have heq : (x == y) = true ↔ exact x = exact y := by simp [beq_iff, hx, hy]
  have hlt : x < y ↔ exact x < exact y := by simp [lt_iff, hx, hy]
  have hgt : y < x ↔ exact y < exact x := by simp [lt_iff, hx, hy]
  have hle : x ≤ y ↔ exact x ≤ exact y := by simp [le_iff, hx, hy]
  have hge : y ≤ x ↔ exact y ≤ exact x := by simp [le_iff, hx, hy]
  cases p <;> cases ho
  case oeq => exact heq
  case ogt => exact hgt
  case oge => exact hge
  case olt => exact hlt
  case ole => exact hle
  case one => exact (or_congr hlt hgt).trans ne_iff_lt_or_gt.symm
  case ueq => exact (not_congr (or_congr hlt hgt)).trans (not_iff_comm.mp ne_iff_lt_or_gt)
  case ugt => exact (not_congr hle).trans not_le
  case uge => exact (not_congr hlt).trans not_lt
  case ult => exact (not_congr hge).trans not_le
  case ule => exact (not_congr hgt).trans not_lt
  case une => exact not_congr heq

/-! ## 2. Tests on ends -/

/-- Those of some exact numbers that lie in an interval. -/
def Interval.among (a : Bound) (numbers : Set Extended) : Set Extended := { x ∈ numbers | a.Holds x }

/-- An interval whose ends are in order and belong to some exact numbers. -/
structure Interval.EndsIn (a : Bound) (numbers : Set Extended) : Prop where
  ordered : a.lo ≤ a.hi
  lo : exact a.lo ∈ numbers
  hi : exact a.hi ∈ numbers

namespace Interval

variable {numbers : Set Extended} {a b : Bound}

theorem holds_iff_of_ordered (ha : a.lo ≤ a.hi) {x : Extended} : a.Holds x ↔ exact a.lo ≤ x ∧ x ≤ exact a.hi := by
  obtain ⟨hlo, hhi, -⟩ := le_iff.mp ha
  exact and_congr (and_iff_right hlo) (and_iff_right hhi)

theorem EndsIn.lo_mem (ha : a.EndsIn numbers) : exact a.lo ∈ a.among numbers :=
  ⟨ha.lo, (holds_iff_of_ordered ha.ordered).mpr ⟨le_rfl, (le_iff.mp ha.ordered).2.2⟩⟩

theorem EndsIn.hi_mem (ha : a.EndsIn numbers) : exact a.hi ∈ a.among numbers :=
  ⟨ha.hi, (holds_iff_of_ordered ha.ordered).mpr ⟨(le_iff.mp ha.ordered).2.2, le_rfl⟩⟩

variable (ha : a.EndsIn numbers) (hb : b.EndsIn numbers)

include ha hb

theorem lt_ends_iff : Endpoint.lt a.hi b.lo = true ↔ ∀ x ∈ a.among numbers, ∀ y ∈ b.among numbers, x < y := by
  constructor
  · exact fun h x hx y hy => lt_of_lt hx.2 hy.2 h
  · exact fun h => lt_true_iff.mpr ⟨(le_iff.mp ha.ordered).2.1, (le_iff.mp hb.ordered).1, h _ ha.hi_mem _ hb.lo_mem⟩

theorem le_ends_iff : Endpoint.le a.hi b.lo = true ↔ ∀ x ∈ a.among numbers, ∀ y ∈ b.among numbers, x ≤ y := by
  constructor
  · exact fun h x hx y hy => le_of_le hx.2 hy.2 h
  · exact fun h => le_true_iff.mpr ⟨(le_iff.mp ha.ordered).2.1, (le_iff.mp hb.ordered).1, h _ ha.hi_mem _ hb.lo_mem⟩

theorem coincide_iff : Order.coincide a b = true ↔ ∀ x ∈ a.among numbers, ∀ y ∈ b.among numbers, x = y := by
  constructor
  · exact fun h x hx y hy => eq_of_coincide hx.2 hy.2 h
  · intro h
    have hlow := h _ ha.lo_mem _ hb.lo_mem
    have hhigh := h _ ha.hi_mem _ hb.lo_mem
    have hcross := h _ ha.lo_mem _ hb.hi_mem
    obtain ⟨hal, hah, -⟩ := le_iff.mp ha.ordered
    obtain ⟨hbl, hbh, -⟩ := le_iff.mp hb.ordered
    simp only [Order.coincide, isSingleton, Bool.and_eq_true, same_true_iff]
    exact ⟨⟨⟨hal, hah, hlow.trans hhigh.symm⟩, hbl, hbh, hlow.symm.trans hcross⟩, hal, hbl, hlow⟩

theorem apart_iff : Order.apart a b = true ↔ ∀ x ∈ a.among numbers, ∀ y ∈ b.among numbers, x ≠ y := by
  constructor
  · exact fun h x hx y hy => ne_of_apart hx.2 hy.2 h
  · -- Intervals that are not apart share the greater of their lower ends.
    intro h
    obtain ⟨hal, hah, -⟩ := le_iff.mp ha.ordered
    obtain ⟨hbl, hbh, -⟩ := le_iff.mp hb.ordered
    simp only [Order.apart, Bool.or_eq_true, lt_true_iff, hal, hah, hbl, hbh, true_and]
    by_contra hmeet
    push Not at hmeet
    rcases le_total (exact a.lo) (exact b.lo) with hle | hle
    · exact h _ ⟨hb.lo, (holds_iff_of_ordered ha.ordered).mpr ⟨hle, hmeet.1⟩⟩ _ hb.lo_mem rfl
    · exact h _ ha.lo_mem _ ⟨ha.lo, (holds_iff_of_ordered hb.ordered).mpr ⟨hle, hmeet.2⟩⟩ rfl

end Interval

/-! ## 3. Decisions -/

/-- A decision says all that can be said about a relation between the members of two sets:
that it holds for all of them, that it holds for none, or neither. -/
structure Decision.Tells {α : Type} (d : Decision) (s t : Set α) (r : α → α → Prop) : Prop where
  all : d = .alwaysTrue ↔ ∀ x ∈ s, ∀ y ∈ t, r x y
  none : d = .alwaysFalse ↔ ∀ x ∈ s, ∀ y ∈ t, ¬ r x y
  neither : d = .depends ↔ ¬ (∀ x ∈ s, ∀ y ∈ t, r x y) ∧ ¬ ∀ x ∈ s, ∀ y ∈ t, ¬ r x y

namespace Decision

variable {α β : Type} {s t : Set α} {r : α → α → Prop}

theorem tells_ofCertainty {always never : Bool} (hs : s.Nonempty) (ht : t.Nonempty)
    (halways : always = true ↔ ∀ x ∈ s, ∀ y ∈ t, r x y) (hnever : never = true ↔ ∀ x ∈ s, ∀ y ∈ t, ¬ r x y) :
    (ofCertainty always never).Tells s t r := by
  have hexcl : ¬ (always = true ∧ never = true) := by
    rintro ⟨h1, h2⟩
    obtain ⟨x, hx⟩ := hs
    obtain ⟨y, hy⟩ := ht
    exact hnever.mp h2 x hx y hy (halways.mp h1 x hx y hy)
  refine ⟨Iff.trans ?_ halways, Iff.trans ?_ hnever, Iff.trans ?_ (and_congr (not_congr halways) (not_congr hnever))⟩ <;>
    revert hexcl <;> cases always <;> cases never <;> decide

theorem Tells.congr {d : Decision} {r' : α → α → Prop} (h : d.Tells s t r) (hr : ∀ x y, r' x y ↔ r x y) :
    d.Tells s t r' := by
  obtain rfl : r' = r := funext₂ fun x y => propext (hr x y)
  exact h

/-- What is told about images is told about the things themselves. -/
theorem Tells.of_image {d : Decision} {read : β → α} {s t : Set β} {r' : β → β → Prop}
    (h : d.Tells (read '' s) (read '' t) r) (hr : ∀ x ∈ s, ∀ y ∈ t, (r' x y ↔ r (read x) (read y))) :
    d.Tells s t r' := by
  have hall : (∀ x ∈ read '' s, ∀ y ∈ read '' t, r x y) ↔ ∀ x ∈ s, ∀ y ∈ t, r' x y := by
    simp only [Set.forall_mem_image]
    exact forall₂_congr fun x hx => forall₂_congr fun y hy => (hr x hx y hy).symm
  have hnone : (∀ x ∈ read '' s, ∀ y ∈ read '' t, ¬ r x y) ↔ ∀ x ∈ s, ∀ y ∈ t, ¬ r' x y := by
    simp only [Set.forall_mem_image]
    exact forall₂_congr fun x hx => forall₂_congr fun y hy => not_congr (hr x hx y hy).symm
  exact ⟨h.all.trans hall, h.none.trans hnone, h.neither.trans (and_congr (not_congr hall) (not_congr hnone))⟩

end Decision

theorem Order.decide_tells (o : Order) {numbers : Set Extended} {a b : Bound} (ha : a.EndsIn numbers)
    (hb : b.EndsIn numbers) : (o.decide a b).Tells (a.among numbers) (b.among numbers) o.Holds := by
  have hall : ∀ {r : Extended → Extended → Prop}, (∀ y ∈ b.among numbers, ∀ x ∈ a.among numbers, r x y) ↔
      ∀ x ∈ a.among numbers, ∀ y ∈ b.among numbers, r x y :=
    ⟨fun h x hx y hy => h y hy x hx, fun h y hy x hx => h x hx y hy⟩
  have hlt := Interval.lt_ends_iff ha hb
  have hle := Interval.le_ends_iff ha hb
  have hgt := (Interval.lt_ends_iff hb ha).trans hall
  have hge := (Interval.le_ends_iff hb ha).trans hall
  have heq := Interval.coincide_iff ha hb
  have hne := Interval.apart_iff ha hb
  have htells : ∀ {always never : Bool} {r : Extended → Extended → Prop}, _ → _ →
      (Decision.ofCertainty always never).Tells (a.among numbers) (b.among numbers) r :=
    Decision.tells_ofCertainty ⟨_, ha.lo_mem⟩ ⟨_, hb.lo_mem⟩
  cases o with
  | eq => exact htells heq hne
  | ne => exact htells hne (by simpa only [Order.Holds, not_not] using heq)
  | lt => exact htells hlt (by simpa only [Order.Holds, not_lt] using hge)
  | le => exact htells hle (by simpa only [Order.Holds, not_le] using hgt)
  | gt => exact htells hgt (by simpa only [Order.Holds, not_lt] using hle)
  | ge => exact htells hge (by simpa only [Order.Holds, not_le] using hlt)

theorem IntPredicate.decide_tells {p : IntPredicate} {numbers : Set Extended} {a b : Bound} (ha : a.EndsIn numbers)
    (hb : b.EndsIn numbers) (hsign : p ∈ [.ugt, .uge, .ult, .ule] → 0.0 ≤ a.lo ∧ 0.0 ≤ b.lo) :
    (p.decide a b).Tells (a.among numbers) (b.among numbers) p.Holds := by
  have htest : (p.isUnsigned && !(a.isNonneg && b.isNonneg)) = false := by
    cases hp : p.isUnsigned with
    | false => rfl
    | true =>
      have hmem : p ∈ [.ugt, .uge, .ult, .ule] := by
        cases p with
        | ugt | uge | ult | ule => decide
        | _ => cases hp
      obtain ⟨h1, h2⟩ := hsign hmem
      have ha0 : a.isNonneg = true := decide_eq_true h1
      have hb0 : b.isNonneg = true := decide_eq_true h2
      rw [ha0, hb0]
      rfl
  unfold IntPredicate.decide
  rw [htest]
  exact (p.order.decide_tells ha hb).congr p.holds_iff

/-- The numbers of an interval are the exact values of the patterns between its ends. -/
theorem Interval.among_patterns {a : Bound} (ha : a.lo ≤ a.hi) : a.EndsIn (exact '' { x | IsNumber x }) ∧
    a.among (exact '' { x | IsNumber x }) = exact '' { x | a.lo ≤ x ∧ x ≤ a.hi } := by
  obtain ⟨hlo, hhi, -⟩ := le_iff.mp ha
  refine ⟨⟨ha, ⟨_, hlo, rfl⟩, ⟨_, hhi, rfl⟩⟩, Set.ext fun v => ⟨?_, ?_⟩⟩
  · rintro ⟨⟨x, hx, rfl⟩, hholds⟩
    exact ⟨x, ⟨le_iff.mpr ⟨hlo, hx, hholds.1.2⟩, le_iff.mpr ⟨hx, hhi, hholds.2.2⟩⟩, rfl⟩
  · rintro ⟨x, ⟨hxlo, hxhi⟩, rfl⟩
    obtain ⟨-, hx, hle⟩ := le_iff.mp hxlo
    exact ⟨⟨x, hx, rfl⟩, ⟨hlo, hle⟩, hhi, (le_iff.mp hxhi).2.2⟩

theorem FloatPredicate.decide_tells {p : FloatPredicate} {a b : Bound} (ha : a.lo ≤ a.hi) (hb : b.lo ≤ b.hi)
    (hp : p ∉ [.never, .ord, .uno, .always]) :
    (p.decide a b).Tells { x | a.lo ≤ x ∧ x ≤ a.hi } { y | b.lo ≤ y ∧ y ≤ b.hi } p.Holds := by
  obtain ⟨o, ho, hdecide⟩ : ∃ o, p.order? = some o ∧ p.decide a b = o.decide a b := by
    cases p with
    | never | ord | uno | always => exact absurd (by decide) hp
    | _ => exact ⟨_, rfl, rfl⟩
  obtain ⟨hends, hnumbers⟩ := Interval.among_patterns ha
  obtain ⟨hends', hnumbers'⟩ := Interval.among_patterns hb
  have htells := o.decide_tells hends hends'
  rw [hnumbers, hnumbers', ← hdecide] at htells
  exact htells.of_image fun x hx y hy => holds_iff ho (le_iff.mp hx.1).2.1 (le_iff.mp hy.1).2.1

/-! ## 4. Mirrored predicates -/

section Mirrored

variable {α : Type} [Endpoint α] (a b : Interval α)

theorem Order.coincide_comm : coincide a b = coincide b a := by
  unfold coincide Endpoint.same
  rw [Bool.and_comm a.isSingleton, Bool.and_comm (Endpoint.le a.lo b.lo)]

theorem Order.apart_comm : apart a b = apart b a := Bool.or_comm ..

theorem Order.decide_eq_comm : Order.eq.decide b a = Order.eq.decide a b := by
  simp only [Order.decide, coincide_comm b a, apart_comm b a]

theorem Order.decide_ne_comm : Order.ne.decide b a = Order.ne.decide a b := by
  simp only [Order.decide, coincide_comm b a, apart_comm b a]

theorem IntPredicate.decide_swapped (p : IntPredicate) : p.swapped.decide b a = p.decide a b := by
  have hunsigned : p.swapped.isUnsigned = p.isUnsigned := by cases p <;> rfl
  have horder : p.swapped.order.decide b a = p.order.decide a b := by
    cases p with
    | eq => exact Order.decide_eq_comm a b
    | ne => exact Order.decide_ne_comm a b
    | _ => rfl
  unfold IntPredicate.decide
  rw [hunsigned, horder, Bool.and_comm a.isNonneg]

theorem FloatPredicate.decide_swapped (p : FloatPredicate) : p.swapped.decide b a = p.decide a b := by
  cases p with
  | oeq | ueq => exact Order.decide_eq_comm a b
  | one | une => exact Order.decide_ne_comm a b
  | _ => rfl

end Mirrored

/-- **Decisions are exact.** For intervals with ordered ends, an integer comparison is decided
exactly if it has one outcome for all numbers of the intervals, and so is a comparison of
binary64 numbers; unsigned comparisons are meant where nothing is negative. The numbers
compared by an integer comparison may be any that include the ends: all exact numbers, or
the integers if the ends are integers. For all intervals whatsoever, the mirrored
predicate decides the same about the exchanged intervals. -/
theorem decide_exact_and_mirrored (a b : Bound) :
    (a.lo ≤ a.hi → b.lo ≤ b.hi →
      (∀ p : IntPredicate, (p ∈ [.ugt, .uge, .ult, .ule] → 0.0 ≤ a.lo ∧ 0.0 ≤ b.lo) →
        ∀ numbers, exact a.lo ∈ numbers → exact a.hi ∈ numbers → exact b.lo ∈ numbers → exact b.hi ∈ numbers →
          (p.decide a b).Tells (a.among numbers) (b.among numbers) p.Holds) ∧
      ∀ p : FloatPredicate, p ∉ [.never, .ord, .uno, .always] →
        (p.decide a b).Tells { x | a.lo ≤ x ∧ x ≤ a.hi } { y | b.lo ≤ y ∧ y ≤ b.hi } p.Holds) ∧
    (∀ p : IntPredicate, p.decide a b = p.swapped.decide b a) ∧
      ∀ p : FloatPredicate, p.decide a b = p.swapped.decide b a := by
  refine ⟨fun ha hb => ⟨?_, ?_⟩, fun p => (p.decide_swapped a b).symm, fun p => (p.decide_swapped a b).symm⟩
  · intro p hsign numbers hal hah hbl hbh
    exact IntPredicate.decide_tells ⟨ha, hal, hah⟩ ⟨hb, hbl, hbh⟩ hsign
  · exact fun p hp => FloatPredicate.decide_tells ha hb hp

/-- Intervals that touch: whether the first is at most the second is decided, whether it is
less is not. -/
theorem decide_exact_and_mirrored_touching :
    IntPredicate.ule.decide (⟨0.0, 4.0⟩ : Bound) ⟨4.0, 9.0⟩ = .alwaysTrue ∧
    (∀ x ∈ (⟨0.0, 4.0⟩ : Bound).among Set.univ, ∀ y ∈ (⟨4.0, 9.0⟩ : Bound).among Set.univ, x ≤ y) ∧
    ¬ (∀ x ∈ { x | (0.0 : Float) ≤ x ∧ x ≤ 4.0 }, ∀ y ∈ { y | (4.0 : Float) ≤ y ∧ y ≤ 9.0 }, FloatPredicate.ult.Holds x y) := by
  have hule : IntPredicate.ule.decide (⟨0.0, 4.0⟩ : Bound) ⟨4.0, 9.0⟩ = .alwaysTrue := by decide
  have hult : FloatPredicate.ult.decide (⟨0.0, 4.0⟩ : Bound) ⟨4.0, 9.0⟩ = .depends := by decide
  obtain ⟨hint, hfloat⟩ := (decide_exact_and_mirrored ⟨0.0, 4.0⟩ ⟨4.0, 9.0⟩).1 (by decide) (by decide)
  have htells := hint .ule (by decide) Set.univ trivial trivial trivial trivial
  exact ⟨hule, htells.all.mp hule, ((hfloat .ult (by decide)).neither.mp hult).1⟩

end RangedIR
