/-
RangedIR.Proofs.Analysis.Memory — copies of what is known about memory.

What a scope, a snapshot, a join and a restored state have under each key. The state that is
restored from a join is the same, as far as numbers tell, in whatever order the states are joined.
-/
import RangedIR.Analysis.Effects
import RangedIR.Analysis.State
import RangedIR.Proofs.Interval.Membership
import RangedIR.Proofs.Table

namespace RangedIR

/-! ## 1. Scopes -/

namespace Bounds

@[simp] theorem get?_insert (b : Bounds) (key other : ValueKey) (i : Bound) :
    (b.insert key i).get? other = if key = other then some i else b.get? other :=
  Table.find?_insert b.ranges key other i

@[simp] theorem get?_set (b : Bounds) (key other : ValueKey) (i : Option Bound) :
    (b.set key i).get? other = if key = other then i else b.get? other :=
  Table.find?_set b.ranges key other i

theorem get?_filterKeys (b : Bounds) (keep : ValueKey → Bool) (key : ValueKey) :
    (b.filterKeys keep).get? key = if keep key then b.get? key else none :=
  Table.find?_filter b.ranges keep key

theorem operand?_of_key {b : Bounds} {f : FuncId} {op : Operand} {key : ValueKey}
    (h : ValueKey.ofOperand? f op = some key) : b.operand? f op = b.get? key := by
  cases op with
  | inst i | arg k | global g => simp only [operand?, h, Option.bind_some]
  | const c => cases h
  | undef => cases h

/-- Setting keys one after the other from a table. -/
theorem get?_foldl_set (g : ValueKey → Option Bound) (keys : List ValueKey) (key : ValueKey) :
    ∀ b : Bounds, (keys.foldl (fun b k => b.set k (g k)) b).get? key =
      if key ∈ keys then g key else b.get? key := by
  induction keys with
  | nil => intro b; simp
  | cons k rest ih =>
    intro b
    rw [List.foldl_cons, ih, get?_set]
    by_cases hk : k = key
    · subst hk
      simp
    · simp [hk, Ne.symm hk]

theorem foldl_set_seeds (g : ValueKey → Option Bound) (keys : List ValueKey) (b : Bounds) :
    (keys.foldl (fun b k => b.set k (g k)) b).seeds = b.seeds :=
  List.foldlRecOn (motive := fun b' : Bounds => b'.seeds = b.seeds) _ _ rfl fun _ h _ _ => h

end Bounds

/-! ## 2. Copies -/

namespace Frame

theorem mem_addMemory {frame : Frame} {key : ValueKey} {k : ValueKey} :
    k ∈ (frame.addMemory key).memory ↔ k = key ∨ k ∈ frame.memory := by
  unfold Frame.addMemory
  by_cases h : frame.memory.contains key = true
  · rw [if_pos h]
    rw [List.contains_iff_mem] at h
    exact ⟨Or.inr, fun hk => hk.elim (fun e => e ▸ h) fun hk => hk⟩
  · rw [if_neg h]
    exact List.mem_cons

theorem addMemory_eq (frame : Frame) (key : ValueKey) :
    frame.addMemory key = { frame with memory := (frame.addMemory key).memory } := by
  unfold Frame.addMemory
  split_ifs <;> rfl

theorem find?_snapshot (f : Frame) (m : Module) (b : Bounds) (key : ValueKey) :
    (f.snapshot m b).slots.find? key = if key ∈ f.memoryKeys m then b.get? key else none := by
  have h := Table.find?_insertAll_filterMap b.get? (f.memoryKeys m) .empty key
  refine Eq.trans h ?_
  rw [Table.find?_empty]
  by_cases hmem : key ∈ f.memoryKeys m
  · cases hb : b.get? key <;> simp [hmem]
  · simp [hmem]

theorem get?_restoreSlots (f : Frame) (m : Module) (b : Bounds) (s : MemoryState) (key : ValueKey) :
    (f.restoreSlots m b s).get? key = if key ∈ f.memoryKeys m then s.slots.find? key else b.get? key :=
  Bounds.get?_foldl_set s.slots.find? (f.memoryKeys m) key b

theorem get?_forgetWhere (f : Frame) (m : Module) (b : Bounds) (stale : ValueKey → Option ValueKey → Bool)
    (key : ValueKey) :
    (f.forgetWhere m b stale).get? key =
      if key ∈ f.memoryKeys m ∧ stale key (f.keyRoot key) = true then none else b.get? key := by
  refine (Bounds.get?_filterKeys b _ key).trans ?_
  by_cases hmem : key ∈ f.memoryKeys m
  · cases stale key (f.keyRoot key) <;> simp [hmem]
  · simp [hmem]

end Frame

namespace MemoryState

theorem findIn_filterMap_hull (t : Table ValueKey Bound) (key : ValueKey) (l : List (ValueKey × Bound)) :
    Table.findIn key (l.filterMap fun e => (t.find? e.1).map fun j => (e.1, e.2.hull j)) =
      (Table.findIn key l).bind fun i => (t.find? key).map i.hull := by
  induction l with
  | nil => rfl
  | cons e rest ih =>
    obtain ⟨k, i⟩ := e
    by_cases hk : k = key
    · subst hk
      cases hf : t.find? k with
      | none =>
        rw [List.filterMap_cons_none (by simp [hf]), ih, hf]
        simp
      | some j =>
        rw [List.filterMap_cons_some (b := (k, i.hull j)) (by simp [hf])]
        simp [Table.findIn]
    · cases hf : t.find? k with
      | none =>
        rw [List.filterMap_cons_none (by simp [hf]), ih]
        simp [Table.findIn, hk]
      | some j =>
        rw [List.filterMap_cons_some (b := (k, i.hull j)) (by simp [hf])]
        simp [Table.findIn, hk, ih]

/-- A join knows the keys that both states know, by the hull. -/
theorem find?_join (a b : MemoryState) (key : ValueKey) :
    (a.join b).slots.find? key =
      (a.slots.find? key).bind fun i => (b.slots.find? key).map i.hull :=
  findIn_filterMap_hull b.slots key a.slots.entries

/-- A join of several states knows the keys that all of them know, by the hull. -/
theorem find?_foldl_join (key : ValueKey) (rest : List MemoryState) : ∀ a : MemoryState,
    (rest.foldl join a).slots.find? key =
      if ∀ e ∈ a :: rest, (e.slots.find? key).isSome then
        Interval.hullOf ((a :: rest).filterMap (·.slots.find? key)) else none := by
  induction rest with
  | nil => intro a; cases h : a.slots.find? key <;> simp [h, Interval.hullOf]
  | cons b rest ih =>
    intro a
    rw [List.foldl_cons, ih]
    cases ha : a.slots.find? key <;> cases hb : b.slots.find? key <;>
      simp [find?_join, ha, hb, Interval.hullOf]

/-- What a join of several states knows, each of them knows at least as sharply. -/
theorem find?_joinAll {l : List MemoryState} {j : MemoryState} (h : joinAll l = some j) {key : ValueKey}
    {i : Bound} (hi : j.slots.find? key = some i) {e : MemoryState} (he : e ∈ l) :
    ∃ i', e.slots.find? key = some i' ∧ ∀ v, i'.Holds v → i.Holds v := by
  cases l with
  | nil => cases he
  | cons a rest =>
    obtain rfl : rest.foldl join a = j := Option.some.inj h
    rw [find?_foldl_join, Option.ite_none_right_eq_some] at hi
    obtain ⟨i', hi'⟩ := Option.isSome_iff_exists.mp (hi.1 e he)
    exact ⟨i', hi', fun v hv => Interval.holds_hullOf (List.mem_filterMap.mpr ⟨e, he, hi'⟩) hv hi.2⟩

theorem mem_of_joinAll {l : List MemoryState} {j : MemoryState} (h : joinAll l = some j) : ∃ e, e ∈ l := by
  cases l with
  | nil => cases h
  | cons a rest => exact ⟨a, List.mem_cons_self⟩

/-- What a union holds. One that is not in the table holds nothing known. -/
def holding (s : MemoryState) (root : ValueKey) : UnionState := s.unions.getD root .untyped

theorem holding_join (a b : MemoryState) (root : ValueKey) :
    (a.join b).holding root = if (b.holding root).agrees (a.holding root) then a.holding root else .untyped := by
  unfold holding Table.getD join
  rw [Table.find?_mapValues]
  cases a.unions.find? root with
  | none => simp
  | some u => cases b.unions.find? root <;> cases u <;> simp [UnionState.agrees]

/-- A union of several states holds what it holds in the first, if it does so in all. -/
theorem holding_foldl_join (root : ValueKey) (rest : List MemoryState) : ∀ a : MemoryState,
    (rest.foldl join a).holding root =
      if ∀ e ∈ rest, (e.holding root).agrees (a.holding root) then a.holding root else .untyped := by
  induction rest with
  | nil => simp
  | cons b rest ih =>
    intro a
    rw [List.foldl_cons, ih, holding_join]
    by_cases hb : (b.holding root).agrees (a.holding root) = true <;> simp [hb]

@[simp] theorem find?_unknown (key : ValueKey) : unknown.slots.find? key = none := rfl

end MemoryState

/-- A state without what may be written knows less. -/
theorem Frame.find?_havoc {f : Frame} {m : Module} {s : MemoryState} {e : Effects} {key : ValueKey} {i : Bound}
    (h : (f.havoc m s e).slots.find? key = some i) :
    e.everything = false ∧ s.slots.find? key = some i ∧ ∃ r, f.keyRoot key = some r ∧ e.hits m r = false := by
  unfold havoc at h
  cases he : e.everything with
  | true => simp [he] at h
  | false =>
    rw [he, if_neg Bool.false_ne_true] at h
    replace h := (Table.find?_filter s.slots _ key).symm.trans h
    cases hr : f.keyRoot key with
    | none => simp [hr] at h
    | some r =>
      cases hh : e.hits m r with
      | true => simp [hr, hh] at h
      | false => exact ⟨rfl, by simpa [hr, hh] using h, r, rfl, hh⟩

/-! ## 3. Joins in any order -/

namespace UnionState

variable {u v w : UnionState} {us : List UnionState}

theorem agrees_symm (h : u.agrees v = true) : v.agrees u = true := by
  cases u <;> cases v <;> simp_all [agrees, Interval.sameEnds, Number.same_true_iff]

theorem agrees_of_agrees (hu : u.agrees w = true) (hv : v.agrees w = true) : u.agrees v = true := by
  cases u <;> cases v <;> cases w <;> simp_all [agrees, Interval.sameEnds, Number.same_true_iff]

/-- All of several states are typed, every two of them alike. -/
def Unanimous (us : List UnionState) : Prop := (∀ u ∈ us, u ≠ .untyped) ∧ us.Pairwise (·.agrees ·)

/-- It is enough to compare with the first. -/
theorem unanimous_cons : Unanimous (u :: us) ↔ (∀ v ∈ us, v.agrees u) ∧ u ≠ .untyped := by
  constructor
  · rintro ⟨htyped, hpair⟩
    exact ⟨fun v hv => agrees_symm ((List.pairwise_cons.mp hpair).1 v hv), htyped u List.mem_cons_self⟩
  · rintro ⟨hall, hu⟩
    refine ⟨List.forall_mem_cons.mpr ⟨hu, fun v hv hnone => ?_⟩, List.pairwise_cons.mpr
      ⟨fun v hv => agrees_symm (hall v hv), List.pairwise_of_forall_mem_list fun v hv w hw =>
        agrees_of_agrees (hall v hv) (hall w hw)⟩⟩
    have hagrees := hall v hv
    cases u <;> simp_all [agrees]

end UnionState

namespace State

variable {s t t' : State} {m : Module} {l l' : List MemoryState}

/-- The memory of a state is that of another where control flow from several states meets. A slot
is known if all of them know it, as the hull; a union is typed if all of them type it alike, as
in one of them. -/
structure Meets (s : State) (m : Module) (l : List MemoryState) (t : State) : Prop where
  known : ∀ key ∈ s.frame.memoryKeys m, (t.bounds.get? key).isSome ↔ ∀ e ∈ l, (e.slots.find? key).isSome
  hull : ∀ key ∈ s.frame.memoryKeys m, ∀ i, t.bounds.get? key = some i →
    Interval.IsHull (l.filterMap (·.slots.find? key)) i
  others : ∀ key ∉ s.frame.memoryKeys m, t.bounds.get? key = s.bounds.get? key
  roots : t.frame.aliases.unions.keys = s.frame.aliases.unions.keys
  typed : ∀ root u, t.frame.aliases.unions.find? root = some u →
    (u ≠ .untyped ↔ UnionState.Unanimous (l.map (·.holding root))) ∧ (u ≠ .untyped → u ∈ l.map (·.holding root))

/-- Two states have the same memory, numbers compared as numbers. -/
structure SameMemory (t t' : State) : Prop where
  slots : ∀ key, Option.Rel Interval.SameReach (t.bounds.get? key) (t'.bounds.get? key)
  unions : ∀ root, Option.Rel (fun u v => u = v ∨ u.agrees v) (t.frame.aliases.unions.find? root)
    (t'.frame.aliases.unions.find? root)

theorem meets_restore (s : State) (m : Module) (a : MemoryState) (rest : List MemoryState) :
    s.Meets m (a :: rest) (s.restore m (rest.foldl MemoryState.join a)) := by
  have hslot : ∀ key ∈ s.frame.memoryKeys m, (s.restore m (rest.foldl MemoryState.join a)).bounds.get? key = _ :=
    fun key hkey => ((s.frame.get?_restoreSlots m s.bounds _ key).trans (if_pos hkey)).trans
      (MemoryState.find?_foldl_join key rest a)
  refine ⟨fun key hkey => ?_, fun key hkey i hi => ?_, fun key hkey => ?_, Table.keys_mapValues _ _, fun root u hu => ?_⟩
  · rw [hslot key hkey]
    split_ifs with hall
    · obtain ⟨i, hi⟩ := Option.isSome_iff_exists.mp (hall a List.mem_cons_self)
      exact iff_of_true (by simp [hi, Interval.hullOf]) hall
    · exact iff_of_false Bool.false_ne_true hall
  · rw [hslot key hkey, Option.ite_none_right_eq_some] at hi
    exact Interval.isHull_hullOf hi.2
  · exact (s.frame.get?_restoreSlots m s.bounds _ key).trans (if_neg hkey)
  · obtain ⟨_, -, rfl⟩ := Option.map_eq_some_iff.mp ((Table.find?_mapValues _ _ root).symm.trans hu)
    change (MemoryState.holding _ root ≠ _ ↔ _) ∧ (MemoryState.holding _ root ≠ _ → MemoryState.holding _ root ∈ _)
    rw [MemoryState.holding_foldl_join, List.map_cons, UnionState.unanimous_cons, List.forall_mem_map]
    split_ifs with hall
    · exact ⟨(and_iff_right hall).symm, fun _ => List.mem_cons_self⟩
    · exact ⟨iff_of_false (fun h => h rfl) fun h => hall h.1, fun h => absurd rfl h⟩

theorem rel_of_isSome {α β : Type} {r : α → β → Prop} {x : Option α} {y : Option β} (hsome : x.isSome ↔ y.isSome)
    (hr : ∀ a b, x = some a → y = some b → r a b) : Option.Rel r x y := by
  cases x <;> cases y <;> simp_all [Option.rel_some_some]

theorem Meets.sameMemory (h : s.Meets m l t) (h' : s.Meets m l' t') (hperm : l'.Perm l) : t'.SameMemory t := by
  constructor
  · intro key
    by_cases hkey : key ∈ s.frame.memoryKeys m
    · refine rel_of_isSome ?_ fun i i' hi hi' => (h'.hull key hkey i hi).unique (h.hull key hkey i' hi') fun j =>
        (hperm.filterMap _).mem_iff
      rw [h.known key hkey, h'.known key hkey]
      exact forall_congr' fun e => imp_congr_left hperm.mem_iff
    · rw [h.others key hkey, h'.others key hkey]
      exact rel_of_isSome .rfl fun i i' hi hi' => Option.some.inj (hi.symm.trans hi') ▸ ⟨fun _ => .rfl, fun _ => .rfl⟩
  · intro root
    refine rel_of_isSome ?_ fun u' u hu' hu => ?_
    · rw [← Table.contains_eq, ← Table.contains_eq, ← Table.mem_keys, ← Table.mem_keys, h.roots, h'.roots]
    have hheld := hperm.map (·.holding root)
    have htyped : u' ≠ .untyped ↔ u ≠ .untyped := by
      rw [(h.typed root u hu).1, (h'.typed root u' hu').1]
      exact and_congr (forall_congr' fun v => imp_congr_left hheld.mem_iff) (hheld.pairwise_iff UnionState.agrees_symm)
    by_cases hne : u = .untyped
    · exact .inl (by simpa [hne] using htyped)
    have : Std.Symm fun u v : UnionState => u.agrees v = true := ⟨fun _ _ => UnionState.agrees_symm⟩
    exact or_iff_not_imp_left.mpr (((h.typed root u hu).1.mp hne).2.forall
      (hheld.mem_iff.mp ((h'.typed root u' hu').2 (htyped.mpr hne))) ((h.typed root u hu).2 hne))

/-- **Joins in any order.** Where several states meet, memory is put back as they meet, and in
whatever order they are joined it is the same. -/
theorem restored_in_any_order (s : State) (m : Module) (first : MemoryState) (rest : List MemoryState) :
    ∃ j, MemoryState.joinAll (first :: rest) = some j ∧ s.Meets m (first :: rest) (s.restore m j) ∧
      ∀ l, l.Perm (first :: rest) → ∃ j', MemoryState.joinAll l = some j' ∧
        (s.restore m j').SameMemory (s.restore m j) := by
  refine ⟨_, rfl, meets_restore s m first rest, fun l hperm => ?_⟩
  cases l with
  | nil => exact absurd hperm.length_eq (by simp)
  | cons a others => exact ⟨_, rfl, (meets_restore s m first rest).sameMemory (meets_restore s m a others) hperm⟩

end State

end RangedIR
