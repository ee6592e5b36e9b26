/-
RangedIR.Proofs.Interval.Membership — the exact numbers that an interval holds.

An interval with binary64 ends holds the exact numbers between the exact values of its
ends, infinities included. An interval one of whose ends is no number holds nothing.
-/
import RangedIR.Interval.Decision
import RangedIR.Proofs.Number.Conversion

namespace RangedIR

open Endpoint

namespace Number

/-! ## 1. Ends -/

/-- The end lies at or below an exact number. -/
def Below (x : Float) (v : Extended) : Prop := IsNumber x ∧ exact x ≤ v

/-- The end lies at or above an exact number. -/
def Above (x : Float) (v : Extended) : Prop := IsNumber x ∧ v ≤ exact x

variable {a b x y : Float} {v : Extended} {p q : ℚ}

theorem Below.le {w : Extended} (h : Below x v) (hw : v ≤ w) : Below x w :=
  ⟨h.1, h.2.trans hw⟩

theorem Above.le {w : Extended} (h : Above x v) (hw : w ≤ v) : Above x w :=
  ⟨h.1, hw.trans h.2⟩

theorem Denotes.below_iff (h : Denotes x q) : Below x v ↔ ((q : WithTop ℚ) : Extended) ≤ v := by
  rw [Below, h.exact]
  exact and_iff_right h.isNumber

theorem Denotes.above_iff (h : Denotes x q) : Above x v ↔ v ≤ ((q : WithTop ℚ) : Extended) := by
  rw [Above, h.exact]
  exact and_iff_right h.isNumber

theorem coe_le_coe : ((p : WithTop ℚ) : Extended) ≤ ((q : WithTop ℚ) : Extended) ↔ p ≤ q := by
  rw [WithBot.coe_le_coe, WithTop.coe_le_coe]

/-- An end below a rational number is the negative infinity or finite. -/
theorem Below.cases (h : Below x ((q : WithTop ℚ) : Extended)) : datum x = .infinite true ∨ ∃ p ≤ q, Denotes x p := by
  obtain ⟨hnum, hle⟩ := h
  rcases hx : exact x with _ | _ | p
  · exact Or.inl (datum_of_exact true hnum hx)
  · rw [hx] at hle
    exact absurd hle (not_le.mpr (WithBot.coe_lt_coe.mpr (WithTop.coe_lt_top q)))
  · rw [hx] at hle
    exact Or.inr ⟨p, coe_le_coe.mp hle, denotes_of_exact hnum hx⟩

/-- An end above a rational number is the positive infinity or finite. -/
theorem Above.cases (h : Above x ((q : WithTop ℚ) : Extended)) :
    datum x = .infinite false ∨ ∃ p ≥ q, Denotes x p := by
  obtain ⟨hnum, hle⟩ := h
  rcases hx : exact x with _ | _ | p
  · rw [hx] at hle
    exact absurd hle (not_le.mpr (WithBot.bot_lt_coe _))
  · exact Or.inl (datum_of_exact false hnum hx)
  · rw [hx] at hle
    exact Or.inr ⟨p, coe_le_coe.mp hle, denotes_of_exact hnum hx⟩

theorem below_of_infinite (h : datum x = .infinite true) (v : Extended) : Below x v := by
  unfold Below IsNumber exact
  rw [h]
  exact ⟨by simp, bot_le⟩

theorem above_of_infinite (h : datum x = .infinite false) (v : Extended) : Above x v := by
  unfold Above IsNumber exact
  rw [h]
  refine ⟨by simp, ?_⟩
  exact le_top

theorem le_true_iff : le a b = true ↔ IsNumber a ∧ IsNumber b ∧ exact a ≤ exact b := by
  change decide (a ≤ b) = true ↔ _
  rw [decide_eq_true_iff, le_iff]

theorem lt_true_iff : lt a b = true ↔ IsNumber a ∧ IsNumber b ∧ exact a < exact b := by
  change decide (a < b) = true ↔ _
  rw [decide_eq_true_iff, lt_iff]

theorem isNumber_true_iff : isNumber a = true ↔ IsNumber a := by
  unfold isNumber
  rw [le_true_iff]
  exact ⟨And.left, fun h => ⟨h, h, le_rfl⟩⟩

theorem same_true_iff : same a b = true ↔ IsNumber a ∧ IsNumber b ∧ exact a = exact b := by
  unfold same
  rw [Bool.and_eq_true, le_true_iff, le_true_iff]
  constructor
  · rintro ⟨⟨ha, hb, h1⟩, -, -, h2⟩
    exact ⟨ha, hb, le_antisymm h1 h2⟩
  · rintro ⟨ha, hb, h⟩
    exact ⟨⟨ha, hb, h.le⟩, hb, ha, h.ge⟩

theorem lesser_of_isNumber (ha : IsNumber a) (hb : IsNumber b) :
    lesser a b = if lt b a then b else a := by
  unfold lesser
  rw [isNumber_true_iff.mpr ha, isNumber_true_iff.mpr hb]
  rfl

theorem greater_of_isNumber (ha : IsNumber a) (hb : IsNumber b) :
    greater a b = if lt a b then b else a := by
  unfold greater
  rw [isNumber_true_iff.mpr ha, isNumber_true_iff.mpr hb]
  rfl

theorem isNumber_eq_false (ha : ¬ IsNumber a) : isNumber a = false := by
  rw [← Bool.not_eq_true, isNumber_true_iff]
  exact ha

/-- The lesser of two ends is below what either is below. -/
theorem below_lesser : Below (lesser a b) v ↔ Below a v ∨ Below b v := by
  by_cases ha : IsNumber a
  · by_cases hb : IsNumber b
    · rw [lesser_of_isNumber ha hb]
      split_ifs with hlt
      · rw [lt_true_iff] at hlt
        exact (or_iff_right_of_imp fun h => ⟨hb, hlt.2.2.le.trans h.2⟩).symm
      · have hle : exact a ≤ exact b := not_lt.mp fun hgt => hlt (lt_true_iff.mpr ⟨hb, ha, hgt⟩)
        exact (or_iff_left_of_imp fun h => ⟨ha, hle.trans h.2⟩).symm
    · simp [lesser, isNumber_true_iff.mpr ha, isNumber_eq_false hb, show ¬ Below b v from fun h => hb h.1]
  · simp [lesser, isNumber_eq_false ha, show ¬ Below a v from fun h => ha h.1]

/-- The greater of two ends is above what either is above. -/
theorem above_greater : Above (greater a b) v ↔ Above a v ∨ Above b v := by
  by_cases ha : IsNumber a
  · by_cases hb : IsNumber b
    · rw [greater_of_isNumber ha hb]
      split_ifs with hlt
      · rw [lt_true_iff] at hlt
        exact (or_iff_right_of_imp fun h => ⟨hb, h.2.trans hlt.2.2.le⟩).symm
      · have hle : exact b ≤ exact a := not_lt.mp fun hgt => hlt (lt_true_iff.mpr ⟨ha, hb, hgt⟩)
        exact (or_iff_left_of_imp fun h => ⟨ha, h.2.trans hle⟩).symm
    · simp [greater, isNumber_true_iff.mpr ha, isNumber_eq_false hb, show ¬ Above b v from fun h => hb h.1]
  · simp [greater, isNumber_eq_false ha, show ¬ Above a v from fun h => ha h.1]

/-! ## 2. Sums and differences -/

/-- The sum of an infinity and a datum. -/
def Datum.plusInfinity (s : Bool) : Datum → Datum
  | .finite .. => .infinite s
  | .infinite t => if t = s then .infinite s else .nan
  | .nan => .nan

open Float.Model Float.Model.UnpackedFloat in
theorem datum_add_infinite {s : Bool} (hx : datum x = .infinite s) (y : Float) :
    datum (x + y) = .plusInfinity s (datum y) ∧ y + x = x + y := by
  rw [datum_eq_ofUnpacked] at hx
  obtain ⟨t, rfl, hu⟩ : ∃ t, isMinus t = s ∧ x.toModel.unpack = .infinity t := by
    cases hu : x.toModel.unpack <;> simp_all [ofUnpacked]
  have hsum : ∀ v : UnpackedFloat,
      datum (Float.ofModel (Float.Model.pack (UnpackedFloat.add Format.binary64 (.infinity t) v))) =
        .plusInfinity (isMinus t) (ofUnpacked v) ∧
      UnpackedFloat.add Format.binary64 v (.infinity t) = UnpackedFloat.add Format.binary64 (.infinity t) v := by
    intro v
    cases v with
    | notANumber => exact ⟨datum_pack (u := .notANumber) trivial, rfl⟩
    | zero r => exact ⟨datum_pack (u := .infinity t) trivial, rfl⟩
    | finite r m e hm => exact ⟨datum_pack (u := .infinity t) trivial, rfl⟩
    | infinity r =>
      cases t <;> cases r
      · exact ⟨datum_pack (u := .infinity _) trivial, rfl⟩
      · exact ⟨datum_pack (u := .notANumber) trivial, rfl⟩
      · exact ⟨datum_pack (u := .notANumber) trivial, rfl⟩
      · exact ⟨datum_pack (u := .infinity _) trivial, rfl⟩
  obtain ⟨hdatum, hcomm⟩ := hsum y.toModel.unpack
  rw [← hu] at hdatum hcomm
  exact ⟨hdatum.trans (by rw [datum_eq_ofUnpacked y]), congrArg (fun u => Float.ofModel (Float.Model.pack u)) hcomm⟩

/-- An infinity plus a number that is not the opposite infinity is that infinity. -/
theorem add_infinite {s : Bool} (hx : datum x = .infinite s) (hy : IsNumber y)
    (hne : datum y ≠ .infinite (!s)) : datum (x + y) = .infinite s ∧ datum (y + x) = .infinite s := by
  obtain ⟨h, hcomm⟩ := datum_add_infinite hx y
  rw [hcomm, h, and_self]
  cases hd : datum y with
  | finite => rfl
  | nan => exact absurd hd hy
  | infinite t => cases s <;> cases t <;> simp_all [Datum.plusInfinity]

theorem nearest_mono (h : p ≤ q) : nearest p ≤ nearest q := by
  have hle := rounded_mono h
  unfold nearest
  by_cases h1 : limit ≤ rounded p
  · rw [if_pos h1, if_pos (h1.trans hle)]
  rw [if_neg h1]
  by_cases h2 : rounded p ≤ -limit
  · rw [if_pos h2]
    exact bot_le
  rw [if_neg h2]
  by_cases h3 : limit ≤ rounded q
  · rw [if_pos h3]
    exact WithBot.coe_le_coe.mpr le_top
  rw [if_neg h3, if_neg (fun h => h2 (hle.trans h))]
  exact coe_le_coe.mpr hle

/-- Ends below two numbers have a sum below their sum, provided that binary64 has it. -/
theorem Below.add (hx : Below x ((p : WithTop ℚ) : Extended))
    (hy : Below y ((q : WithTop ℚ) : Extended)) (hr : Representable (p + q)) (hlt : |p + q| < limit) :
    Below (x + y) (((p + q : ℚ) : WithTop ℚ) : Extended) := by
  rcases hx.cases with hinf | ⟨p', hp, hx'⟩
  · have hne : datum y ≠ .infinite false := by
      rcases hy.cases with h | ⟨_, _, _, _, _, h, _⟩ <;> simp [h]
    exact below_of_infinite (add_infinite hinf hy.1 hne).1 _
  rcases hy.cases with hinf | ⟨q', hq, hy'⟩
  · have hne : datum x ≠ .infinite false := by
      obtain ⟨_, _, _, h, _⟩ := hx'
      simp [h]
    exact below_of_infinite (add_infinite hinf hx.1 hne).2 _
  · obtain ⟨hnum, hexact⟩ := hx'.add hy'
    refine ⟨hnum, ?_⟩
    rw [hexact, ← nearest_of_representable hr hlt]
    exact nearest_mono (by linarith)

/-- Ends above two numbers have a sum above their sum, provided that binary64 has it. -/
theorem Above.add (hx : Above x ((p : WithTop ℚ) : Extended))
    (hy : Above y ((q : WithTop ℚ) : Extended)) (hr : Representable (p + q)) (hlt : |p + q| < limit) :
    Above (x + y) (((p + q : ℚ) : WithTop ℚ) : Extended) := by
  rcases hx.cases with hinf | ⟨p', hp, hx'⟩
  · have hne : datum y ≠ .infinite true := by
      rcases hy.cases with h | ⟨_, _, _, _, _, h, _⟩ <;> simp [h]
    exact above_of_infinite (add_infinite hinf hy.1 hne).1 _
  rcases hy.cases with hinf | ⟨q', hq, hy'⟩
  · have hne : datum x ≠ .infinite true := by
      obtain ⟨_, _, _, h, _⟩ := hx'
      simp [h]
    exact above_of_infinite (add_infinite hinf hx.1 hne).2 _
  · obtain ⟨hnum, hexact⟩ := hx'.add hy'
    refine ⟨hnum, ?_⟩
    rw [hexact, ← nearest_of_representable hr hlt]
    exact nearest_mono (by linarith)

theorem Above.neg (h : Above x ((q : WithTop ℚ) : Extended)) : Below (-x) (((-q : ℚ) : WithTop ℚ) : Extended) := by
  rcases h.cases with hinf | ⟨p, hp, hx⟩
  · exact below_of_infinite (by rw [datum_neg, hinf]; rfl) _
  · exact hx.neg.below_iff.mpr (coe_le_coe.mpr (neg_le_neg hp))

theorem Below.neg (h : Below x ((q : WithTop ℚ) : Extended)) : Above (-x) (((-q : ℚ) : WithTop ℚ) : Extended) := by
  rcases h.cases with hinf | ⟨p, hp, hx⟩
  · exact above_of_infinite (by rw [datum_neg, hinf]; rfl) _
  · exact hx.neg.above_iff.mpr (coe_le_coe.mpr (neg_le_neg hp))

end Number

/-! ## 3. Intervals -/

open Number

namespace Interval

/-- An exact number lies between the ends. -/
def Holds (i : Bound) (v : Extended) : Prop := Below i.lo v ∧ Above i.hi v

variable {v : Extended} {i : Bound}

/-- The interval reaches as far down and as far up as the intervals of a list do. -/
structure IsHull (l : List Bound) (i : Bound) : Prop where
  lo : ∀ v, Below i.lo v ↔ ∃ j ∈ l, Below j.lo v
  hi : ∀ v, Above i.hi v ↔ ∃ j ∈ l, Above j.hi v

/-- Two intervals reach equally far down and equally far up. -/
structure SameReach (i j : Bound) : Prop where
  lo : ∀ v, Below i.lo v ↔ Below j.lo v
  hi : ∀ v, Above i.hi v ↔ Above j.hi v

theorem IsHull.unique {l l' : List Bound} {i' : Bound} (h : IsHull l i) (h' : IsHull l' i')
    (hl : ∀ j, j ∈ l ↔ j ∈ l') : SameReach i i' :=
  ⟨fun v => (h.lo v).trans (by simp [h'.lo, hl]), fun v => (h.hi v).trans (by simp [h'.hi, hl])⟩

theorem isHull_foldl (rest : List Bound) : ∀ a : Bound, IsHull (a :: rest) (rest.foldl hull a) := by
  induction rest with
  | nil => exact fun a => ⟨by simp, by simp⟩
  | cons b rest ih =>
    intro a
    obtain ⟨hlo, hhi⟩ := ih (a.hull b)
    exact ⟨fun v => (hlo v).trans (by simp [hull, below_lesser, or_assoc]),
      fun v => (hhi v).trans (by simp [hull, above_greater, or_assoc])⟩

theorem isHull_hullOf {l : List Bound} {h : Bound} (hh : hullOf l = some h) : IsHull l h := by
  cases l with
  | nil => cases hh
  | cons a rest => exact Option.some.inj hh ▸ isHull_foldl rest a

/-- The hull of a list holds what a member holds. -/
theorem holds_hullOf {l : List Bound} {h : Bound} (hi : i ∈ l) (hv : i.Holds v)
    (hh : hullOf l = some h) : h.Holds v :=
  ⟨((isHull_hullOf hh).lo v).mpr ⟨i, hi, hv.1⟩, ((isHull_hullOf hh).hi v).mpr ⟨i, hi, hv.2⟩⟩

theorem holds_singleton {x : Float} {q : ℚ} (hx : Denotes x q) :
    (singleton x).Holds v ↔ v = ((q : WithTop ℚ) : Extended) := by
  unfold Holds singleton
  rw [hx.below_iff, hx.above_iff]
  exact ⟨fun h => le_antisymm h.2 h.1, fun h => ⟨h.ge, h.le⟩⟩

/-- An interval of one number holds only that number. -/
theorem eq_of_isSingleton (hs : i.isSingleton = true) (h : i.Holds v) : v = exact i.lo := by
  obtain ⟨-, -, heq⟩ := same_true_iff.mp hs
  exact le_antisymm (heq ▸ h.2.2) h.1.2

theorem isNonneg_iff : i.isNonneg = true ↔ IsNumber i.lo ∧ 0 ≤ exact i.lo := by
  have hzero : exact (zero : Float) = 0 := denotes_zero.exact
  unfold isNonneg
  rw [le_true_iff, hzero]
  exact and_iff_right denotes_zero.isNumber

theorem nonneg_of_isNonneg (hi : i.isNonneg = true) (h : i.Holds v) : 0 ≤ v :=
  (isNonneg_iff.mp hi).2.trans h.1.2

theorem holds_sub {a b : Bound} {p q : ℚ} (ha : a.Holds ((p : WithTop ℚ) : Extended))
    (hb : b.Holds ((q : WithTop ℚ) : Extended)) (hr : Representable (p - q)) (hlt : |p - q| < limit) :
    (a.sub b).Holds (((p - q : ℚ) : WithTop ℚ) : Extended) := by
  rw [sub_eq_add_neg] at hr hlt ⊢
  constructor
  · change Below (a.lo - b.hi) _
    rw [sub_eq_add]
    exact ha.1.add hb.2.neg hr hlt
  · change Above (a.hi - b.lo) _
    rw [sub_eq_add]
    exact ha.2.add hb.1.neg hr hlt

end Interval

/-! ## 4. Decisions -/

/-- Two exact numbers are in an order. -/
def Order.Holds : Order → Extended → Extended → Prop
  | .eq, x, y => x = y
  | .ne, x, y => x ≠ y
  | .lt, x, y => x < y
  | .le, x, y => x ≤ y
  | .gt, x, y => y < x
  | .ge, x, y => y ≤ x

instance (o : Order) (x y : Extended) : Decidable (o.Holds x y) :=
  match o with
  | .eq => inferInstanceAs (Decidable (x = y))
  | .ne => inferInstanceAs (Decidable (x ≠ y))
  | .lt => inferInstanceAs (Decidable (x < y))
  | .le => inferInstanceAs (Decidable (x ≤ y))
  | .gt => inferInstanceAs (Decidable (y < x))
  | .ge => inferInstanceAs (Decidable (y ≤ x))

namespace Interval

variable {a b : Bound} {x y : Extended}

theorem lt_of_lt (ha : a.Holds x) (hb : b.Holds y) (h : lt a.hi b.lo = true) : x < y :=
  ha.2.2.trans_lt ((lt_true_iff.mp h).2.2.trans_le hb.1.2)

theorem le_of_le (ha : a.Holds x) (hb : b.Holds y) (h : le a.hi b.lo = true) : x ≤ y :=
  ha.2.2.trans ((le_true_iff.mp h).2.2.trans hb.1.2)

theorem eq_of_coincide (ha : a.Holds x) (hb : b.Holds y) (h : Order.coincide a b = true) : x = y := by
  unfold Order.coincide at h
  rw [Bool.and_eq_true, Bool.and_eq_true] at h
  obtain ⟨⟨h1, h2⟩, h3⟩ := h
  rw [eq_of_isSingleton h1 ha, eq_of_isSingleton h2 hb]
  exact (same_true_iff.mp h3).2.2

theorem ne_of_apart (ha : a.Holds x) (hb : b.Holds y) (h : Order.apart a b = true) : x ≠ y := by
  unfold Order.apart at h
  rw [Bool.or_eq_true] at h
  rcases h with h | h
  · exact (lt_of_lt ha hb h).ne
  · exact (lt_of_lt hb ha h).ne'

/-- What two intervals decide is so for all numbers they hold. -/
theorem holds_iff_of_decide {o : Order} (ha : a.Holds x) (hb : b.Holds y)
    {t : Bool} (h : (o.decide a b).value? = some t) : o.Holds x y ↔ t = true := by
  have hcert : ∀ always never : Bool, (Decision.ofCertainty always never).value? = some t →
      (always = true → o.Holds x y) → (never = true → ¬ o.Holds x y) → (o.Holds x y ↔ t = true) := by
    intro always never hv h1 h2
    unfold Decision.ofCertainty at hv
    split_ifs at hv with ha hn
    · cases hv
      exact iff_of_true (h1 ha) rfl
    · cases hv
      exact iff_of_false (h2 hn) Bool.false_ne_true
    · cases hv
  cases o with
  | eq => exact hcert _ _ h (eq_of_coincide ha hb) (ne_of_apart ha hb)
  | ne => exact hcert _ _ h (ne_of_apart ha hb) (fun h hne => hne (eq_of_coincide ha hb h))
  | lt => exact hcert _ _ h (lt_of_lt ha hb) (fun h => not_lt.mpr (le_of_le hb ha h))
  | le => exact hcert _ _ h (le_of_le ha hb) (fun h => not_le.mpr (lt_of_lt hb ha h))
  | gt => exact hcert _ _ h (lt_of_lt hb ha) (fun h => not_lt.mpr (le_of_le ha hb h))
  | ge => exact hcert _ _ h (le_of_le hb ha) (fun h => not_le.mpr (lt_of_lt ha hb h))

end Interval

end RangedIR
