/-
RangedIR.Proofs.Analysis.Merging — what a scope knows after it took over the scopes of calls.

A fact about the module is the one of the last call. A fact about a value of a called function
is the hull of the facts of the calls that know the value: a call that does not know it takes
nothing away, before or after the others.
-/
import RangedIR.Proofs.Analysis.Memory

namespace RangedIR

/-! ## 1. Hulls -/

namespace Interval

variable {α : Type} [Endpoint α]

/-- An interval that has been taken into a hull adds nothing again. -/
theorem hull_hull (i j : Interval α) : (i.hull j).hull j = i.hull j := by
  unfold hull Endpoint.lesser Endpoint.greater
  split_ifs <;> rfl

theorem hull_self (i : Interval α) : i.hull i = i := by
  unfold hull Endpoint.lesser Endpoint.greater
  split_ifs <;> rfl

theorem isSome_hullOf {l : List (Interval α)} : (hullOf l).isSome = true ↔ l ≠ [] := by
  cases l <;> simp [hullOf]

end Interval

/-! ## 2. One call -/

namespace Bounds

variable {b child : Bounds} {key : ValueKey}

/-- What a scope knows of a value when it takes over what a called function knows. -/
def merged (key : ValueKey) (known new : Option Bound) : Option Bound :=
  match new with
  | none => if key.isGlobal then none else known
  | some i => if key.isGlobal then some i else some (known.elim i (·.hull i))

theorem find?_mergeEntry {ranges : Table ValueKey Bound} {k : ValueKey} (i : Bound) (hk : k ≠ key) :
    (mergeEntry ranges k i).find? key = ranges.find? key := by
  unfold mergeEntry
  split_ifs
  · rw [Table.find?_insert, if_neg hk]
  · split <;> rw [Table.find?_insert, if_neg hk]

theorem find?_mergeEntry_self (ranges : Table ValueKey Bound) (key : ValueKey) (i : Bound) :
    (mergeEntry ranges key i).find? key = merged key (ranges.find? key) (some i) := by
  unfold mergeEntry merged
  split_ifs
  · simp
  · cases ranges.find? key <;> simp

/-- Entering the facts of a called function under some keys; a key may stand there twice. -/
theorem find?_foldl_mergeEntry (child : Bounds) (key : ValueKey) (keys : List ValueKey) :
    ∀ ranges : Table ValueKey Bound,
      (keys.foldl (fun t k => (child.get? k).elim t (mergeEntry t k)) ranges).find? key =
        if key ∈ keys ∧ (child.get? key).isSome then merged key (ranges.find? key) (child.get? key)
        else ranges.find? key := by
  have hagain : ∀ (known : Option Bound) (i : Bound),
      merged key (merged key known (some i)) (some i) = merged key known (some i) := by
    intro known i
    unfold merged
    split_ifs
    · rfl
    · cases known <;> simp [Interval.hull_hull, Interval.hull_self]
  induction keys with
  | nil => intro ranges; simp
  | cons k rest ih =>
    intro ranges
    rw [List.foldl_cons, ih]
    by_cases hk : k = key
    · subst hk
      cases hchild : child.get? k with
      | none => simp
      | some i =>
        simp only [Option.elim_some, find?_mergeEntry_self, hagain]
        simp
    · cases hchild : child.get? k with
      | none => simp [Ne.symm hk]
      | some i => simp [Ne.symm hk, find?_mergeEntry i hk]

theorem get?_mergeChild_eq (b child : Bounds) (key : ValueKey) :
    (b.mergeChild child).get? key = merged key (b.get? key) (child.get? key) := by
  have hkept := Table.find?_filter b.ranges (fun k => !k.isGlobal || child.contains k) key
  have hmem : key ∈ child.ranges.keys ↔ (child.get? key).isSome = true := Table.mem_keys
  refine (find?_foldl_mergeEntry child key child.ranges.keys _).trans ?_
  rw [hkept]
  have hcontains : child.contains key = (child.get? key).isSome := rfl
  rw [hcontains]
  cases hchild : child.get? key with
  | none => cases hglobal : key.isGlobal <;> simp [merged, hglobal]; rfl
  | some i =>
    rw [hchild] at hmem
    simp only [hmem.mpr rfl, Option.isSome_some, and_self, if_true, Bool.or_true]
    rfl

/-- What a called function does not know of a value stays as it is. -/
theorem get?_mergeChild (hlocal : key.isGlobal = false) (hchild : child.get? key = none) :
    (b.mergeChild child).get? key = b.get? key := by
  rw [get?_mergeChild_eq, hchild]
  simp [merged, hlocal]

/-! ## 3. Any number of calls -/

/-- A scope takes over the scopes of calls, one after the other. -/
def mergeAll (b : Bounds) (scopes : List Bounds) : Bounds := scopes.foldl mergeChild b

theorem mergeAll_concat (b : Bounds) (scopes : List Bounds) (last : Bounds) :
    b.mergeAll (scopes ++ [last]) = (b.mergeAll scopes).mergeChild last := by
  simp [mergeAll]

/-- What is known of a value after calls is the hull of what was known and of what the calls
know. -/
theorem get?_mergeAll (hlocal : key.isGlobal = false) (b : Bounds) (scopes : List Bounds) :
    (b.mergeAll scopes).get? key = Interval.hullOf ((b.get? key).toList ++ scopes.filterMap (·.get? key)) := by
  induction scopes using List.reverseRecOn with
  | nil => cases h : b.get? key <;> simp [mergeAll, Interval.hullOf, h]
  | append_singleton scopes last ih =>
    rw [mergeAll_concat, get?_mergeChild_eq, ih, List.filterMap_append, ← List.append_assoc]
    generalize (b.get? key).toList ++ scopes.filterMap (·.get? key) = l
    cases l <;> cases h : last.get? key <;> simp [merged, hlocal, Interval.hullOf, h]

/-- **Scopes of calls.** After calls, a fact about the module is the one that the last call left.
A value of a called function of which nothing was known is known if one of the calls knows it,
and then as the hull of what the calls know, which holds all that each of them holds. -/
theorem merged_scopes (b : Bounds) (scopes : List Bounds) (last : Bounds) {key : ValueKey}
    (hlocal : key.isGlobal = false) (hnew : b.get? key = none) :
    (∀ g, (b.mergeAll (scopes ++ [last])).get? (.global g) = last.get? (.global g)) ∧
      (b.mergeAll (scopes ++ [last])).get? key = Interval.hullOf ((scopes ++ [last]).filterMap (·.get? key)) ∧
      (((b.mergeAll (scopes ++ [last])).get? key).isSome = true ↔
        ∃ scope ∈ scopes ++ [last], (scope.get? key).isSome = true) ∧
      ∀ i, (b.mergeAll (scopes ++ [last])).get? key = some i → ∀ scope ∈ scopes ++ [last], ∀ j,
        scope.get? key = some j → ∀ v, j.Holds v → i.Holds v := by
  have hkey := get?_mergeAll hlocal b (scopes ++ [last])
  simp only [hnew, Option.toList_none, List.nil_append] at hkey
  refine ⟨fun g => ?_, hkey, ?_, fun i hi scope hscope j hj v hv => ?_⟩
  · rw [mergeAll_concat, get?_mergeChild_eq]
    cases last.get? (.global g) <;> rfl
  · rw [hkey, Interval.isSome_hullOf, ne_eq, List.filterMap_eq_nil_iff]
    simp only [not_forall, exists_prop, Option.isSome_iff_ne_none, ne_eq]
  · exact Interval.holds_hullOf (List.mem_filterMap.mpr ⟨scope, hscope, hj⟩) hv (hkey.symm.trans hi)

/-- A scope that knows an argument of a function. -/
def ofArgument (i : Bound) : Bounds := (ofSeeds .empty).insert (.arg 1 0) i

/-- Three calls, the second of which does not know the argument. -/
theorem merged_scopes_three :
    ((ofSeeds .empty).mergeAll ([ofArgument ⟨1, 2⟩, ofSeeds .empty] ++ [ofArgument ⟨5, 6⟩])).get? (.arg 1 0) =
      some ⟨1, 6⟩ := by
  rw [(merged_scopes (ofSeeds .empty) [ofArgument ⟨1, 2⟩, ofSeeds .empty] (ofArgument ⟨5, 6⟩) rfl rfl).2.1]
  decide

/-- An argument that the first call does not know is known after a second call that knows it. -/
theorem unknown_at_first_call :
    (ofSeeds .empty).get? (.arg 1 0) = none ∧
      ((ofSeeds .empty).mergeAll [ofSeeds .empty, ofArgument ⟨5, 5⟩]).get? (.arg 1 0) = some ⟨5, 5⟩ := by
  decide

end Bounds

end RangedIR
