/-
RangedIR.Proofs.Sensor — the text and the ranges of a configuration.

The text of a configuration is what its fingerprint is taken of. Strings and numbers end
where they end, whatever follows, so the text has the sensors in it in one way only; and
sensors of different names have one order.
-/
import RangedIR.Proofs.Interval.Membership
import RangedIR.Proofs.Number.Patterns
import RangedIR.Proofs.Source.Spelling
import RangedIR.Proofs.Table
import RangedIR.Sensor

namespace RangedIR

variable {u v : List Char}

/-! ## 1. Texts that end where they end -/

namespace Text.JsonValue

/-- The characters that have a letter of their own behind a backslash, with the letter. -/
def lettered : List (Char × Char) :=
  [('"', '"'), ('\\', '\\'), ('\x08', 'b'), ('\t', 't'), ('\n', 'n'), ('\x0c', 'f'), ('\r', 'r')]

theorem escaped_cases (c : Char) : (escaped c = [c] ∧ c ≠ '\\' ∧ c ≠ '"') ∨
    (∃ d, (c, d) ∈ lettered ∧ escaped c = ['\\', d]) ∨
    (c.toNat < 0x20 ∧ escaped c = '\\' :: 'u' :: '0' :: '0' :: hexPair c.toNat) := by
  unfold escaped
  split
  iterate 7 exact .inr (.inl ⟨_, by decide, rfl⟩)
  split_ifs with hlow
  · exact .inr (.inr ⟨hlow, rfl⟩)
  · exact .inl ⟨rfl, by assumption, by assumption⟩

theorem escaped_append_inj {c d : Char} (h : escaped c ++ u = escaped d ++ v) : c = d ∧ u = v := by
  have hletter : ∀ p ∈ lettered, p.2 ≠ 'u' ∧ ∀ q ∈ lettered, p.2 = q.2 → p.1 = q.1 := by decide
  have hpair : ∀ n < 0x20, ∀ m < 0x20, hexPair n = hexPair m → n = m := by decide
  obtain ⟨hc, hc1, -⟩ | ⟨x, hx, hc⟩ | ⟨hlow, hc⟩ := escaped_cases c <;>
    obtain ⟨hd, hd1, -⟩ | ⟨y, hy, hd⟩ | ⟨hlow', hd⟩ := escaped_cases d <;> rw [hc, hd] at h
  · simpa using h
  · simp [hc1] at h
  · simp [hc1] at h
  · simp [Ne.symm hd1] at h
  · obtain ⟨rfl, rfl⟩ : x = y ∧ u = v := by simpa using h
    exact ⟨(hletter _ hx).2 _ hy rfl, rfl⟩
  · simp [(hletter _ hx).1] at h
  · simp [Ne.symm hd1] at h
  · simp [(hletter _ hy).1.symm] at h
  · obtain ⟨hhex, rfl⟩ : hexPair c.toNat = hexPair d.toNat ∧ u = v := by simpa [hexPair, and_assoc] using h
    exact ⟨Char.toNat_inj.1 (hpair _ hlow _ hlow' hhex), rfl⟩

theorem stringText_inj {s t : String} (h : (stringText s).toList ++ u = (stringText t).toList ++ v) :
    s = t ∧ u = v := by
  have hquote {c : Char} {w x : List Char} : '"' :: w ≠ escaped c ++ x := by
    obtain ⟨hc, -, hne⟩ | ⟨d, -, hc⟩ | ⟨-, hc⟩ := escaped_cases c <;> rw [hc]
    · simp [Ne.symm hne]
    · simp
    · simp
  have hchars (s t : List Char) (h : s.flatMap escaped ++ '"' :: u = t.flatMap escaped ++ '"' :: v) :
      s = t ∧ u = v := by
    induction s generalizing t with
    | nil =>
      cases t with
      | nil => simpa using h
      | cons d t => simp [hquote] at h
    | cons c s ih =>
      cases t with
      | nil => simp [Ne.symm hquote] at h
      | cons d t =>
        simp only [List.flatMap_cons, List.append_assoc] at h
        obtain ⟨rfl, hrest⟩ := escaped_append_inj h
        obtain ⟨rfl, huv⟩ := ih t hrest
        exact ⟨rfl, huv⟩
  obtain ⟨hst, huv⟩ := hchars s.toList t.toList (by simpa [stringText] using h)
  exact ⟨String.toList_inj.1 hst, huv⟩

/-- The characters behind a number. -/
def endsNumber (c : Char) : Bool := c == ',' || c == '\x7d'

theorem not_endsNumber_of_mem_toDigits (n : Nat) : ∀ c ∈ Nat.toDigits 10 n, endsNumber c = false := by
  intro c hc
  have hall : ∀ c ∈ ['0', '1', '2', '3', '4', '5', '6', '7', '8', '9'], endsNumber c = false := by
    simp [endsNumber]
  exact hall c (Source.isDigit_cases (Source.isDigit_toDigits hc))

theorem not_endsNumber_of_mem_decimalText (style : Number.NumberStyle) (d : Number.Decimal) :
    ∀ c ∈ style.decimalText d, endsNumber c = false := by
  have hsigns : endsNumber '0' = false ∧ endsNumber '.' = false ∧ endsNumber 'e' = false ∧
      endsNumber '+' = false ∧ endsNumber '-' = false := by decide
  have hdigits := not_endsNumber_of_mem_toDigits d.digits
  have hexponent := fun e : Int => not_endsNumber_of_mem_toDigits e.natAbs
  intro c
  rw [Number.NumberStyle.decimalText.eq_def]
  generalize Nat.toDigits 10 d.digits = digits at hdigits
  unfold Number.positionalText Number.exponentText
  dsimp only
  grind [List.mem_of_mem_take, List.mem_of_mem_drop]

theorem not_endsNumber_of_mem_numberText (x : Float) : ∀ c ∈ (numberText x).toList, endsNumber c = false := by
  unfold numberText Number.NumberStyle.text
  split_ifs
  · split
    · simp [endsNumber]
    · split_ifs <;> simp [endsNumber]
    · rw [String.toList_ofList]
      split_ifs
      · exact List.forall_mem_cons.2 ⟨rfl, not_endsNumber_of_mem_decimalText _ _⟩
      · exact not_endsNumber_of_mem_decimalText _ _
  · simp [endsNumber]

theorem numberText_inj {x y : Float} {c d : Char} (hc : endsNumber c) (hd : endsNumber d)
    (h : (numberText x).toList ++ c :: u = (numberText y).toList ++ d :: v) :
    numberText x = numberText y ∧ c :: u = d :: v := by
  have hcut (x : Float) {c : Char} (hc : endsNumber c) (u : List Char) :
      ((numberText x).toList ++ c :: u).takeWhile (fun c => !endsNumber c) = (numberText x).toList :=
    Source.takeWhile_of_stops (by simpa using not_endsNumber_of_mem_numberText x) (by simpa using hc)
  have hxy : (numberText x).toList = (numberText y).toList := by rw [← hcut x hc u, h, hcut y hd v]
  rw [hxy, List.append_right_inj] at h
  exact ⟨String.toList_inj.1 hxy, h⟩

end Text.JsonValue

open Text JsonValue

namespace Sensor

variable {s t : Sensor} {a b : List Sensor}

/-! ## 2. Sensors as written -/

theorem toList_compact_json (s : Sensor) : s.json.compact.toList = "\x7b\"identifier\":".toList ++
    ((stringText s.identifier).toList ++ (",\"lower\":".toList ++ ((numberText s.lower).toList ++
      ',' :: ("\"upper\":".toList ++ ((numberText s.upper).toList ++ ['\x7d']))))) := by
  have hidentifier : stringText "identifier" = "\"identifier\"" := rfl
  have hlower : stringText "lower" = "\"lower\"" := rfl
  have hupper : stringText "upper" = "\"upper\"" := rfl
  simp [json, compact, compactFields, hidentifier, hlower, hupper]

/-- The bounds of two sensors have one text only if they are one number. -/
def NumbersApart (s t : Sensor) : Prop :=
  ∀ x ∈ [s.lower, s.upper], ∀ y ∈ [t.lower, t.upper], numberText x = numberText y → x = y

instance : Decidable (s.NumbersApart t) :=
  inferInstanceAs (Decidable (∀ x ∈ [s.lower, s.upper], ∀ y ∈ [t.lower, t.upper], _ → _))

theorem json_inj (hapart : s.NumbersApart t) (h : s.json.compact.toList ++ u = t.json.compact.toList ++ v) :
    s = t ∧ u = v := by
  simp only [toList_compact_json, List.append_assoc, List.append_right_inj] at h
  obtain ⟨hidentifier, h⟩ := stringText_inj h
  simp only [List.append_right_inj, List.cons_append] at h
  obtain ⟨hlower, h⟩ := numberText_inj rfl rfl h
  simp only [List.append_assoc, List.cons.injEq, true_and, List.append_right_inj, List.cons_append] at h
  obtain ⟨hupper, h⟩ := numberText_inj rfl rfl h
  refine ⟨?_, by simpa using h⟩
  obtain ⟨si, sl, su⟩ := s
  obtain ⟨ti, tl, tu⟩ := t
  obtain rfl : si = ti := hidentifier
  obtain rfl : sl = tl := hapart _ (by simp) _ (by simp) hlower
  obtain rfl : su = tu := hapart _ (by simp) _ (by simp) hupper
  rfl

/-- Sensors behind others in a list. -/
def later (l : List Sensor) : List Char := l.flatMap fun s => ',' :: s.json.compact.toList

theorem cons_compactItems (hne : a ≠ []) : ',' :: (compactItems (a.map (·.json))).toList = later a := by
  induction a with
  | nil => simp at hne
  | cons s a ih =>
    cases a with
    | nil => simp [compactItems, later]
    | cons t a =>
      have := ih (by simp)
      simp_all [compactItems, later]

theorem later_inj (hapart : ∀ s ∈ a, ∀ t ∈ b, s.NumbersApart t)
    (h : later a ++ ']' :: u = later b ++ ']' :: v) : a = b := by
  induction a generalizing b with
  | nil =>
    cases b with
    | nil => rfl
    | cons t b => simp [later] at h
  | cons s a ih =>
    cases b with
    | nil => simp [later] at h
    | cons t b =>
      simp only [later, List.flatMap_cons, List.cons_append, List.append_assoc, List.cons.injEq, true_and] at h
      obtain ⟨rfl, hrest⟩ := json_inj (hapart s (by simp) t (by simp)) h
      rw [ih (fun s hs t ht => hapart s (by simp [hs]) t (by simp [ht])) hrest]

theorem items_inj (hapart : ∀ s ∈ a, ∀ t ∈ b, s.NumbersApart t)
    (h : (compactItems (a.map (·.json))).toList ++ ']' :: u = (compactItems (b.map (·.json))).toList ++ ']' :: v) :
    a = b := by
  have hopens (s : Sensor) (l : List Sensor) (u w : List Char) :
      (compactItems ((s :: l).map (·.json))).toList ++ u ≠ ']' :: w := by
    have hitems := cons_compactItems (List.cons_ne_nil s l)
    rw [later, List.flatMap_cons, List.cons_append, List.cons.injEq, toList_compact_json] at hitems
    rw [hitems.2]
    simp
  cases a with
  | nil =>
    cases b with
    | nil => rfl
    | cons t b => exact absurd h.symm (hopens t b _ _)
  | cons s a =>
    cases b with
    | nil => exact absurd h (hopens s a _ _)
    | cons t b =>
      have hcomma := congrArg (',' :: ·) h
      simp only [← List.cons_append, cons_compactItems (List.cons_ne_nil _ _)] at hcomma
      exact later_inj hapart hcomma

/-! ## 3. Accepted sensors -/

theorem checkFrom_ok {seen : List String} (h : checkFrom seen a = .ok ()) :
    (∀ s ∈ a, s.lower.isFinite = true ∧ s.upper.isFinite = true ∧ ¬ s.upper < s.lower ∧ s.identifier ∉ seen) ∧
      (a.map identifier).Nodup := by
  induction a generalizing seen with
  | nil => simp
  | cons s a ih =>
    rw [checkFrom] at h
    split at h
    · cases h
    · next hfault =>
      obtain ⟨hall, hnodup⟩ := ih h
      unfold fault? at hfault
      split_ifs at hfault with hempty hfinite hreversed hseen
      refine ⟨List.forall_mem_cons.2 ⟨?_, fun t ht => ?_⟩, List.nodup_cons.2 ⟨fun hs => ?_, hnodup⟩⟩
      · simp only [Bool.or_eq_true, Bool.not_eq_true', not_or, Bool.not_eq_false] at hfinite
        exact ⟨hfinite.1, hfinite.2, hreversed, by simpa using hseen⟩
      · obtain ⟨hlower, hupper, horder, hnew⟩ := hall t ht
        exact ⟨hlower, hupper, horder, fun hmem => hnew (List.mem_cons_of_mem _ hmem)⟩
      · obtain ⟨t, ht, hname⟩ := List.mem_map.1 hs
        exact (hall t ht).2.2.2 (hname ▸ List.mem_cons_self)

/-- Sensors of different names have one order. -/
theorem mergeSort_eq_of_perm {le : Sensor → Sensor → Bool} (hle : ∀ s t, le s t ↔ s.identifier ≤ t.identifier)
    (hnodup : (a.map identifier).Nodup) (h : a.Perm b) : a.mergeSort le = b.mergeSort le := by
  have htrans (s t w : Sensor) (hst : le s t) (htw : le t w) : le s w :=
    (hle s w).2 (String.le_trans ((hle s t).1 hst) ((hle t w).1 htw))
  have htotal (s t : Sensor) : (le s t || le t s) = true := by
    rw [Bool.or_eq_true, hle, hle]
    exact String.le_total _ _
  refine List.Perm.eq_of_pairwise (fun s t hs ht hst hts => ?_) (List.pairwise_mergeSort htrans htotal a)
    (List.pairwise_mergeSort htrans htotal b) (((List.mergeSort_perm a le).trans h).trans (List.mergeSort_perm b le).symm)
  have hname := String.le_antisymm ((hle s t).1 hst) ((hle t s).1 hts)
  exact List.inj_on_of_nodup_map hnodup (List.mem_mergeSort.1 hs) (h.mem_iff.2 (List.mem_mergeSort.1 ht)) hname

theorem toList_canonicalText : ∃ le : Sensor → Sensor → Bool, (∀ s t, le s t ↔ s.identifier ≤ t.identifier) ∧
    ∀ l, (canonicalText l).toList = "\x7b\"sensors\":[".toList ++
      ((compactItems ((l.mergeSort le).map (·.json))).toList ++ ']' :: ['\x7d']) := by
  have hsorted : ∃ le : Sensor → Sensor → Bool, (∀ s t, le s t ↔ s.identifier ≤ t.identifier) ∧
      ∀ l, canonicalText l = (object [("sensors", .array ((l.mergeSort le).map (·.json)))]).compact := by
    refine ⟨_, ?_, fun l => rfl⟩
    intro s t
    rw [Bool.not_eq_true', decide_eq_false_iff_not, String.not_lt]
  have hsensors : stringText "sensors" = "\"sensors\"" := rfl
  obtain ⟨le, hle, htext⟩ := hsorted
  refine ⟨le, hle, fun l => ?_⟩
  simp [htext, compact, compactFields, hsensors]

theorem canonicalText_eq_iff (ha : check a = .ok ()) (hapart : ∀ s ∈ a, ∀ t ∈ b, s.NumbersApart t) :
    canonicalText a = canonicalText b ↔ a.Perm b := by
  obtain ⟨le, hle, htext⟩ := toList_canonicalText
  constructor
  · intro h
    have hitems := congrArg String.toList h
    rw [htext, htext, List.append_right_inj] at hitems
    have hsorted := items_inj (fun s hs t ht => hapart s (List.mem_mergeSort.1 hs) t (List.mem_mergeSort.1 ht)) hitems
    exact (List.mergeSort_perm a le).symm.trans (hsorted ▸ List.mergeSort_perm b le)
  · intro h
    rw [← String.toList_inj, htext, htext, mergeSort_eq_of_perm hle (checkFrom_ok ha).2 h]

/-! ## 4. Declared ranges -/

/-- The declared range. Between the two zeros, both ends are the lower one. -/
def declared (s : Sensor) : Bound := ⟨s.lower, if s.lower == 0.0 && s.upper == 0.0 then s.lower else s.upper⟩

theorem span_eq_declared (hlower : s.lower.isFinite = true) (hupper : s.upper.isFinite = true)
    (horder : ¬ s.upper < s.lower) : Interval.span s.lower s.upper = s.declared := by
  have hl := (Number.denotes_units hlower).isNumber
  have hu := (Number.denotes_units hupper).isNumber
  have hle : Number.exact s.lower ≤ Number.exact s.upper :=
    not_lt.1 fun hlt => horder (Number.lt_iff.2 ⟨hu, hl, hlt⟩)
  have hreversed : Endpoint.lt s.upper s.lower = false := decide_eq_false horder
  rw [Interval.span, Number.lesser_of_isNumber hl hu, Number.greater_of_isNumber hl hu, hreversed, declared]
  by_cases hlt : s.lower < s.upper
  · -- two zeros are not below each other
    have hzeros : (s.lower == 0.0 && s.upper == 0.0) = false := by
      refine Bool.eq_false_iff.2 fun hzeros => ?_
      rw [Bool.and_eq_true, Number.beq_iff, Number.beq_iff] at hzeros
      exact (Number.lt_iff.1 hlt).2.2.ne (hzeros.1.2.2.trans hzeros.2.2.2.symm)
    have hgreater : Endpoint.lt s.lower s.upper = true := decide_eq_true hlt
    simp [hzeros, hgreater]
  · have hexact := le_antisymm hle (not_lt.1 fun hgt => hlt (Number.lt_iff.2 ⟨hl, hu, hgt⟩))
    have hgreater : Endpoint.lt s.lower s.upper = false := decide_eq_false hlt
    obtain heq | ⟨hzero, hzero'⟩ := Number.eq_or_zero_of_exact_eq hlower hupper hexact
    · simp [heq]
    · simp [hgreater, hzero, hzero']

/-- **The fingerprint text is canonical, and the seeds are the declared ranges.** -/
theorem canonicalText_and_seeds (ha : check a = .ok ()) :
    (∀ b, (∀ s ∈ a, ∀ t ∈ b, s.NumbersApart t) → (canonicalText a = canonicalText b ↔ a.Perm b)) ∧
    ∀ identifier i, (seeds a).find? identifier = some i ↔ ∃ s ∈ a, s.identifier = identifier ∧ s.declared = i := by
  obtain ⟨hall, hnodup⟩ := checkFrom_ok ha
  refine ⟨fun b hapart => canonicalText_eq_iff ha hapart, fun identifier i => ?_⟩
  rw [seeds, Table.ofList, Table.find?_insertAll (by rwa [List.map_map])]
  simp only [List.mem_map, Prod.mk.injEq, Table.find?_empty, reduceCtorEq, and_false, or_false]
  refine exists_congr fun s => and_congr_right fun hs => and_congr_right fun _ => ?_
  obtain ⟨hlower, hupper, horder, -⟩ := hall s hs
  rw [span_eq_declared hlower hupper horder]

theorem canonicalText_and_seeds_zeros :
    check [⟨"b", -0.0, 0.0⟩, ⟨"a", 0.0, 1.0⟩] = .ok () ∧
    canonicalText [⟨"b", -0.0, 0.0⟩, ⟨"a", 0.0, 1.0⟩] = canonicalText [⟨"a", 0.0, 1.0⟩, ⟨"b", -0.0, 0.0⟩] ∧
    canonicalText [⟨"b", -0.0, 0.0⟩, ⟨"a", 0.0, 1.0⟩] ≠ canonicalText [⟨"b", 0.0, 0.0⟩, ⟨"a", 0.0, 1.0⟩] ∧
    (seeds [⟨"b", -0.0, 0.0⟩, ⟨"a", 0.0, 1.0⟩]).find? "a" = some ⟨0.0, 1.0⟩ := by
  have hcheck : check [⟨"b", -0.0, 0.0⟩, ⟨"a", 0.0, 1.0⟩] = .ok () := by decide
  obtain ⟨htext, hseeds⟩ := canonicalText_and_seeds hcheck
  refine ⟨hcheck, (htext _ (by decide)).2 (.swap _ _ _), fun h => ?_, (hseeds _ _).2 ⟨⟨"a", 0.0, 1.0⟩, by simp, rfl, by decide⟩⟩
  exact absurd ((htext _ (by decide)).1 h) (by decide)

end Sensor

end RangedIR
