/-
RangedIR.Proofs.Analysis.Lookup — elements of constant tables.

An index that is known by an interval selects the elements at the integers in it. The ends are
rounded inwards and cut to the table before they become places, so the places exist and are
those of the integers between the ends, infinite ends included.
-/
import RangedIR.Analysis.Engine
import RangedIR.Proofs.Analysis.Memory
import RangedIR.Proofs.Interval.Enclosure
import RangedIR.Proofs.Interval.Ordered
import RangedIR.Proofs.Number.Patterns

namespace RangedIR

open Number Endpoint

/-! ## 1. Places -/

namespace Number

variable {x y : Float} {q : ℚ} {n : Nat}

theorem Denotes.gt_infinite (hx : Denotes x q) (hy : datum y = .infinite true) : y < x := by
  rw [lt_iff, hx.exact, exact_of_infinite hy]
  exact ⟨by simp [IsNumber, hy], hx.isNumber, WithBot.bot_lt_coe _⟩

theorem Denotes.lt_infinite (hx : Denotes x q) (hy : datum y = .infinite false) : x < y := by
  rw [lt_iff, hx.exact, exact_of_infinite hy]
  exact ⟨hx.isNumber, by simp [IsNumber, hy], WithBot.coe_lt_coe.mpr (WithTop.coe_lt_top q)⟩

/-- The first of the integers from zero on that are not below an end, if there is one. -/
theorem first_cases (hx : IsNumber x) :
    datum (greater (ceil x) 0.0) = .infinite false ∧ (∀ i : Nat, ¬ Below x (whole i)) ∨
      ∃ a : Nat, Denotes (greater (ceil x) 0.0) (a : ℤ) ∧ ∀ i : Nat, Below x (whole i) ↔ a ≤ i := by
  have hzero : Denotes 0.0 (0 : ℤ) := denotes_zero_int
  rcases hx.cases with ⟨s, hs⟩ | ⟨p, hp⟩
  · have hceil : datum (ceil x) = .infinite s := by
      rw [ceil, hs]
      exact datum_ofDatum_infinite s
    rw [greater_of_isNumber (by simp [IsNumber, hceil]) hzero.isNumber]
    cases s with
    | false =>
      rw [if_neg (by simp [lt_true_iff, exact_of_infinite hceil])]
      exact .inl ⟨hceil, fun i h => by simp [Below, exact_of_infinite hs, whole] at h⟩
    | true =>
      rw [if_pos (lt_true_iff.mpr (lt_iff.mp (hzero.gt_infinite hceil)))]
      exact .inr ⟨0, hzero, fun i => iff_of_true (below_of_infinite hs _) i.zero_le⟩
  · refine .inr ⟨(max ⌈p⌉ 0).toNat, ?_, fun i => ?_⟩
    · rw [Int.toNat_of_nonneg (le_max_right _ _)]
      exact hp.ceil.greater hzero
    · rw [hp.below_iff, whole, coe_le_coe, ← Int.ceil_le]
      omega

/-- The last place of a table is found exactly, up to the number that binary64 counts to. -/
theorem denotes_last (hn : n ≤ 2 ^ 53) : Denotes (ofInt n - 1.0) (n - 1 : ℤ) := by
  have hlength : Denotes (ofInt n) (n : ℤ) := denotes_ofInt (by rw [abs_of_nonneg (by positivity)]; exact_mod_cast hn)
  refine Interval.denotes_of_nearest (hlength.sub denotes_one) (by push_cast; rfl) ?_
  rw [abs_le]
  omega

/-- The last place of a longer table is not found before that number. -/
theorem above_last (hn : 2 ^ 53 ≤ n) : Above (ofInt n - 1.0) (whole (2 ^ 53 - 1)) := by
  have hlength : Above (ofInt n) (whole (2 ^ 53)) := by
    obtain ⟨hnumber, hexact⟩ := isNearest_ofInt n
    refine ⟨hnumber, ?_⟩
    rw [hexact, whole, ← nearest_of_representable (representable_int (by norm_num)) (abs_int_lt_limit (by norm_num))]
    exact nearest_mono (by exact_mod_cast hn)
  have hone : Above (-1.0) (whole (-1)) := (denotes_one_int.neg).above_iff.mpr (coe_le_coe.mpr (by norm_num))
  rw [sub_eq_add]
  have hsum : ((2 ^ 53 : ℤ) : ℚ) + ((-1 : ℤ) : ℚ) = ((2 ^ 53 - 1 : ℤ) : ℚ) := by norm_num
  have hadd := hlength.add hone (hsum ▸ representable_int (by norm_num)) (hsum ▸ abs_int_lt_limit (by norm_num))
  rwa [hsum] at hadd

/-- The last of the places of a table that are not above an end, if there is one. The table is no
longer than binary64 counts, or the end lies before the number it counts to. -/
theorem last_cases (hx : IsNumber x) (hn : n ≤ 2 ^ 53 ∨ ¬ Above x (whole (2 ^ 53))) :
    datum (lesser (floor x) (ofInt n - 1.0)) = .infinite true ∧ (∀ i : Nat, ¬ Above x (whole i)) ∨
      ∃ b : ℤ, Denotes (lesser (floor x) (ofInt n - 1.0)) b ∧ b < n ∧ b < 2 ^ 53 ∧
        ∀ i : Nat, i < n → (Above x (whole i) ↔ i ≤ b) := by
  rcases hx.cases with ⟨s, hs⟩ | ⟨p, hp⟩
  · have hfloor : datum (floor x) = .infinite s := by
      rw [floor, hs]
      exact datum_ofDatum_infinite s
    cases s with
    | false =>
      have hn := hn.resolve_right fun h => h (above_of_infinite hs _)
      have hlast := denotes_last hn
      rw [lesser_of_isNumber (by simp [IsNumber, hfloor]) hlast.isNumber,
        if_pos (lt_true_iff.mpr (lt_iff.mp (hlast.lt_infinite hfloor)))]
      exact .inr ⟨n - 1, hlast, by omega, by omega, fun i hi => iff_of_true (above_of_infinite hs _) (by omega)⟩
    | true =>
      have hlast : IsNumber (ofInt n - 1.0) := (le_total n (2 ^ 53)).elim (fun h => (denotes_last h).isNumber)
        fun h => (above_last h).1
      rw [lesser_of_isNumber (by simp [IsNumber, hfloor]) hlast,
        if_neg (by simp [lt_true_iff, exact_of_infinite hfloor])]
      exact .inl ⟨hfloor, fun i h => by simp [Above, exact_of_infinite hs, whole] at h⟩
  · have habove : ∀ i : ℤ, Above x (whole i) ↔ i ≤ ⌊p⌋ := fun i => by
      rw [hp.above_iff, whole, coe_le_coe, ← Int.le_floor]
    rcases le_or_gt n (2 ^ 53) with hle | hlt
    · refine .inr ⟨min ⌊p⌋ (n - 1), hp.floor.lesser (denotes_last hle), by omega, by omega, fun i hi => ?_⟩
      rw [habove]
      omega
    · have hreach : ⌊p⌋ < 2 ^ 53 := by simpa [habove] using hn.resolve_left hlt.not_ge
      obtain ⟨hnumber, hlast⟩ := above_last hlt.le
      refine .inr ⟨⌊p⌋, ?_, by omega, hreach, fun i _ => habove i⟩
      rw [lesser_of_isNumber hp.floor.isNumber hnumber, if_neg]
      · exact hp.floor
      · rw [lt_true_iff, hp.floor.exact]
        refine fun h => (lt_irrefl _ (h.2.2.trans_le (le_trans ?_ hlast))).elim
        exact coe_le_coe.mpr (by exact_mod_cast Int.le_sub_one_of_lt hreach)

end Number

namespace State

variable {index : Bound} {n first last : Nat}

/-- A look-up goes from the first to the last place in the interval, and there is none if no
place is in the interval. -/
theorem lookedUp_cases (hindex : index.lo ≤ index.hi) (hn : n ≤ 2 ^ 53 ∨ ¬ Above index.hi (whole (2 ^ 53))) :
    lookedUp n index = none ∧ (∀ i < n, ¬ index.Holds (whole i)) ∨
      ∃ first last, lookedUp n index = some (first, last) ∧ first ≤ last ∧ last < n ∧
        ∀ i < n, index.Holds (whole i) ↔ first ≤ i ∧ i ≤ last := by
  obtain ⟨hlo, hhi, -⟩ := le_iff.mp hindex
  unfold lookedUp
  dsimp only
  rcases last_cases hhi hn with ⟨hinf, hnone⟩ | ⟨b, hb, hbn, hcounted, hlast⟩
  · refine .inl ⟨if_pos ?_, fun i _ h => hnone i h.2⟩
    rcases first_cases hlo with ⟨hinf', -⟩ | ⟨a, ha, -⟩
    · rw [lt_iff, exact_of_infinite hinf, exact_of_infinite hinf']
      exact ⟨by simp [IsNumber, hinf], by simp [IsNumber, hinf'], bot_lt_top⟩
    · exact ha.gt_infinite hinf
  rcases first_cases hlo with ⟨hinf, hnone⟩ | ⟨a, ha, hfirst⟩
  · exact .inl ⟨if_pos (hb.lt_infinite hinf), fun i _ h => hnone i h.1⟩
  have hiff : ∀ i < n, index.Holds (whole i) ↔ a ≤ i ∧ (i : ℤ) ≤ b := fun i hi =>
    and_congr (hfirst i) (hlast i hi)
  by_cases hlt : b < a
  · refine .inl ⟨if_pos (of_decide_eq_true (hb.endpoint_lt ha |>.mpr hlt)), fun i hi h => ?_⟩
    have := (hiff i hi).mp h
    omega
  · refine .inr ⟨a, b.toNat, ?_, by omega, by omega, fun i hi => (hiff i hi).trans (by omega)⟩
    rw [if_neg fun h => hlt (hb.endpoint_lt ha |>.mp (decide_eq_true h))]
    rw [Interval.toUnsigned64_eq ha (by omega) (abs_le.mpr (by omega)), Interval.toUnsigned64_eq hb (by omega) (abs_le.mpr (by omega))]
    rfl

/-- The elements at the places from the first to the last one. -/
theorem mem_take_drop {elements : List Bound} {j : Bound} :
    j ∈ (elements.drop first).take (last + 1 - first) ↔ ∃ k, (first ≤ k ∧ k ≤ last) ∧ elements[k]? = some j := by
  rw [List.mem_iff_getElem?]
  simp only [List.getElem?_take, List.getElem?_drop]
  constructor
  · rintro ⟨i, hi⟩
    split_ifs at hi
    exact ⟨first + i, by omega, hi⟩
  · rintro ⟨k, ⟨hfirst, hlast⟩, hk⟩
    refine ⟨k - first, ?_⟩
    rwa [if_pos (by omega), Nat.add_sub_cancel' hfirst]

/-- The places that are looked up exist. -/
theorem elementsAt_cases {elements : List Bound} (hindex : index.lo ≤ index.hi)
    (hn : elements.length ≤ 2 ^ 53 ∨ ¬ Above index.hi (whole (2 ^ 53))) :
    elementsAt elements index = some none ∧ (∀ k < elements.length, ¬ index.Holds (whole k)) ∨
      (∃ k < elements.length, index.Holds (whole k)) ∧ ∃ selected r,
        elementsAt elements index = some (some r) ∧ Interval.hullOf selected = some r ∧
          ∀ j, j ∈ selected ↔ ∃ k : Nat, index.Holds (whole k) ∧ elements[k]? = some j := by
  unfold elementsAt
  rcases lookedUp_cases hindex hn with ⟨hnone, hout⟩ | ⟨first, last, hsome, hle, hlt, hiff⟩
  · exact .inl ⟨by rw [hnone], hout⟩
  · have hselected : ∀ j, j ∈ (elements.drop first).take (last + 1 - first) ↔
        ∃ k : Nat, index.Holds (whole k) ∧ elements[k]? = some j := fun j =>
      mem_take_drop.trans (exists_congr fun k => and_congr_left fun hj => (hiff k (List.getElem?_eq_some_iff.mp hj).1).symm)
    have hfirst := hle.trans_lt hlt
    refine .inr ⟨⟨first, hfirst, (hiff first hfirst).mpr ⟨le_rfl, hle⟩⟩, ?_⟩
    rw [hsome]
    dsimp only
    rw [slice?, if_pos ⟨by omega, hlt⟩, Option.map_some]
    cases hslice : (elements.drop first).take (last + 1 - first) with
    | nil =>
      have hmem := mem_take_drop.mpr ⟨first, ⟨le_rfl, hle⟩, List.getElem?_eq_getElem hfirst⟩
      rw [hslice] at hmem
      cases hmem
    | cons j rest => exact ⟨j :: rest, _, rfl, rfl, hslice ▸ hselected⟩

set_option maxRecDepth 4096 in
/-- Binary64 does not count on: the last place of a longer table is taken for one behind its end. -/
theorem elementsAt_uncounted {elements : List Bound} (h : elements.length = 2 ^ 53 + 3) :
    elementsAt elements ⟨0.0, infinity⟩ = none := by
  have hlast : lookedUp (2 ^ 53 + 3) ⟨0.0, infinity⟩ = some (0, 2 ^ 53 + 4) := by decide
  rw [elementsAt, h, hlast]
  simp [slice?, h]

end State

/-! ## 2. Tables -/

namespace Bounds

theorem elements?_seedGlobal_of_ne {g g' : GlobalId} (hg : g' ≠ g) (b : Bounds) (table : Global) :
    (b.seedGlobal g' table).elements? (.global g) = b.elements? (.global g) := by
  unfold seedGlobal elements? insertElements insert
  dsimp only
  split_ifs
  · rfl
  · split
    · rfl
    · rw [Table.find?_insert, if_neg (by simp [hg])]
      split <;> rfl

/-- The elements of a constant table are known from the start, one by one. -/
theorem elements?_seedGlobals {m : Module} {g : GlobalId} {table : Global} {cs : List Constant}
    (hglobal : m.globals[g]? = some table) (hconst : table.isConstant = true) (hinit : table.init = .array cs)
    (b : Bounds) : (b.seedGlobals m).elements? (.global g) = some (cs.map fun c => .singleton c.value) := by
  obtain ⟨hg, rfl⟩ := List.getElem?_eq_some_iff.mp hglobal
  rw [seedGlobals, ← List.take_append_drop g m.globals, List.drop_eq_getElem_cons hg, List.zipIdx_append, List.foldl_append,
    List.zipIdx_cons, List.foldl_cons, List.length_take_of_le hg.le]
  -- The globals behind the table have other numbers.
  refine List.foldlRecOn (motive := fun b' : Bounds => b'.elements? (.global g) = some (cs.map fun c => Interval.singleton c.value))
    _ _ ?_ fun b hb e he => ?_
  · simp [seedGlobal, hconst, hinit, elements?, insertElements]
  · have := List.le_snd_of_mem_zipIdx he
    rw [elements?_seedGlobal_of_ne (g := g) (by show e.2 ≠ g; omega), hb]

end Bounds

namespace State

variable {ctx : Context} {descend : Descent} {s : State} {id : InstId} {i : Inst} {inbounds : Bool} {source baseTy zeroTy ty : Ty}
  {g : GlobalId} {op : Operand} {elements : List Bound} {index : Bound}

/-- The address of an element of a table is known by the elements it may point at. -/
theorem step_table (hinst : s.frame.function.inst? id = some i)
    (hkind : i.kind = .elementPtr inbounds source (.global g) baseTy [(zeroTy, .const (.int 0)), (ty, op)])
    (helements : s.bounds.elements? (.global g) = some elements) (hindex : s.operand? op = some index) :
    s.step ctx descend id = ((elementsAt elements index).join.map fun r =>
      { s with bounds := s.bounds.insert (.inst s.frame.id id) r }).getD s := by
  have hbase : s.frame.key? (.global g) = some (.global g) := rfl
  simp only [step, hinst, transfer, hkind, elementPtr, hbase, tableIndex?, helements, leadingZero, if_true, hindex,
    Option.bind_some]
  cases (elementsAt elements index).join <;> rfl

/-- An index that is known by an interval selects the elements of a constant table at the integers
in the interval. No place is looked up that the table does not have, and the hull of the elements
is recorded; if there are none, nothing is. Places are told by binary64, which counts to `2 ^ 53`:
the table has any length if the index stays below, and any index is right if the table does. -/
theorem table_lookup (ctx : Context) (descend : Descent) {b : Bounds} {table : Global} {cs : List Constant}
    (hseeded : s.bounds.elements = (b.seedGlobals ctx.module).elements)
    (hglobal : ctx.module.globals[g]? = some table) (hconst : table.isConstant = true)
    (hinit : table.init = .array cs) (hinst : s.frame.function.inst? id = some i)
    (hkind : i.kind = .elementPtr inbounds source (.global g) baseTy [(zeroTy, .const (.int 0)), (ty, op)])
    (hop : s.operand? op = some index) (hindex : index.lo ≤ index.hi)
    (hcounted : cs.length ≤ 2 ^ 53 ∨ ¬ Above index.hi (whole (2 ^ 53))) :
    (∃ elements, s.bounds.elements? (.global g) = some elements ∧ elementsAt elements index ≠ none) ∧
      ((∃ k < cs.length, index.Holds (whole k)) → ∃ (selected : List Bound) (r : Bound),
        s.step ctx descend id = { s with bounds := s.bounds.insert (.inst s.frame.id id) r } ∧
        (∀ j, j ∈ selected ↔ ∃ (k : Nat) (c : Constant), cs[k]? = some c ∧ index.Holds (whole k) ∧ j = .singleton c.value) ∧
        Interval.IsHull selected r ∧ ∀ j ∈ selected, ∀ v, j.Holds v → r.Holds v) ∧
      ((∀ k < cs.length, ¬ index.Holds (whole k)) → s.step ctx descend id = s) := by
  have helements : s.bounds.elements? (.global g) = some (cs.map fun c => .singleton c.value) := by
    rw [Bounds.elements?, hseeded]
    exact Bounds.elements?_seedGlobals hglobal hconst hinit b
  rw [step_table hinst hkind helements hop]
  rw [← List.length_map fun c : Constant => (.singleton c.value : Bound)] at hcounted
  rcases elementsAt_cases hindex hcounted with ⟨hnone, hout⟩ | ⟨⟨k, hk, hin⟩, selected, r, hsome, hhull, hselected⟩
  · refine ⟨⟨_, helements, by rw [hnone]; nofun⟩, ?_⟩
    rw [hnone]
    exact ⟨fun ⟨k, hk, hin⟩ => absurd hin (hout k (by rwa [List.length_map])), fun _ => rfl⟩
  · refine ⟨⟨_, helements, by rw [hsome]; nofun⟩, ?_⟩
    rw [hsome]
    rw [List.length_map] at hk
    refine ⟨fun _ => ⟨selected, r, rfl, fun j => ?_, Interval.isHull_hullOf hhull, fun j hj v hv =>
      Interval.holds_hullOf hj hv hhull⟩, fun hout => absurd hin (hout k hk)⟩
    simp only [hselected, List.getElem?_map, Option.map_eq_some_iff]
    exact ⟨fun ⟨k, hin, c, hc, hj⟩ => ⟨k, c, hc, hin, hj.symm⟩, fun ⟨k, c, hc, hin, hj⟩ => ⟨k, hin, c, hc, hj.symm⟩⟩

/-- The address of the element of a table that the argument tells. -/
def pick : Inst :=
  ⟨none, .elementPtr true (.array 3 (.int 32)) (.global 0) (.ptr (.array 3 (.int 32)))
    [(.int 64, .const (.int 0)), (.int 64, .arg 0)], .ptr (.int 32), none, 0, false⟩

/-- A module with a table of three elements. -/
def picking : Context :=
  ⟨⟨none, [], [⟨"table", true, .array 3 (.int 32), .array [.int 9, .int 4, .int 6]⟩], [], []⟩, .default, .default, true⟩

/-- The argument is only known to be at least one. -/
def beforePicking : State :=
  ⟨.initial, .start 0 ⟨"picker", .void, [], none, [], [pick]⟩,
    ((Bounds.ofSeeds .empty).seedGlobals picking.module).insert (.arg 0 0) ⟨1.0, infinity⟩⟩

/-- The last element is looked up although the index has no upper bound. -/
theorem table_lookup_picking : ∃ r : Bound,
    beforePicking.step picking (fun _ run b _ => (run, b, none)) 0 =
      { beforePicking with bounds := beforePicking.bounds.insert (.inst 0 0) r } ∧
    ∀ v, (Interval.singleton (Constant.int 6).value).Holds v → r.Holds v := by
  have hin : Interval.Holds ⟨1.0, infinity⟩ (whole (2 : Nat)) :=
    ⟨denotes_one_int.below_iff.mpr (coe_le_coe.mpr (by norm_num)), above_of_infinite rfl _⟩
  have hinst : beforePicking.frame.function.inst? 0 = some pick := rfl
  have hop : beforePicking.operand? (.arg 0) = some ⟨1.0, infinity⟩ := rfl
  obtain ⟨-, hsome, -⟩ := table_lookup picking (fun _ run b _ => (run, b, none)) (s := beforePicking) (b := .ofSeeds .empty)
    rfl rfl rfl rfl hinst rfl hop (by decide) (Or.inl (show [Constant.int 9, .int 4, .int 6].length ≤ 2 ^ 53 by decide))
  obtain ⟨selected, r, hstep, hmem, -, hholds⟩ := hsome ⟨2, by decide, hin⟩
  exact ⟨r, hstep, hholds _ ((hmem _).mpr ⟨2, .int 6, rfl, hin, rfl⟩)⟩

end State

end RangedIR
