/-
RangedIR.Proofs.Analysis.Roots — the search for the object of an address.

A view and a part are computed from another address, and so on down to an address that is not.
Such a chain ends within as many steps as there are instructions, or comes back to an address
that is computed from itself. Where it ends the search finds out what the address points into;
where it comes back the search has no end.
-/
import Mathlib.Data.Fintype.Pigeonhole
import Mathlib.Logic.Relation
import RangedIR.Analysis.Address

namespace RangedIR.Function

open Relation

/-! ## 1. Chains -/

/-- The first address is computed from the second one. -/
def Follows (f : Function) (a b : Operand) : Prop := f.next? a = some b

/-- The address after some steps, if the chain is that long. -/
def after? (f : Function) : Nat → Operand → Option Operand
  | 0, op => some op
  | n + 1, op => (f.next? op).bind (f.after? n)

/-- The chain of an address comes to one that is computed from itself. -/
def Loops (f : Function) (op : Operand) : Prop := ∃ a, ReflTransGen f.Follows op a ∧ TransGen f.Follows a a

variable {f : Function} {a b c op last : Operand} {n : Nat}

theorem follows_unique (hb : f.Follows a b) (hc : f.Follows a c) : b = c := Option.some.inj (hb.symm.trans hc)

/-- Only instructions are computed, and from one of their operands. -/
theorem Follows.exists_inst (h : f.Follows a b) : ∃ i inst, a = .inst i ∧ f.inst? i = some inst ∧ b ∈ inst.kind.operands := by
  cases a with
  | inst i =>
    simp only [Follows, next?, kind?] at h
    cases hi : f.inst? i with
    | none => simp [hi] at h
    | some inst =>
      refine ⟨i, inst, rfl, hi, ?_⟩
      rw [hi, Option.map_some] at h
      cases hk : inst.kind with
      | view v src =>
        simp only [hk] at h
        split_ifs at h
        simpa [InstKind.operands] using (Option.some.inj h).symm
      | elementPtr inbounds source base baseTy indices =>
        simp only [hk] at h
        simpa [InstKind.operands] using Or.inl (Option.some.inj h).symm
      | _ => simp [hk] at h
  | _ => cases h

theorem reaches_of_after? (h : f.after? n a = some b) : ReflTransGen f.Follows a b := by
  induction n generalizing a with
  | zero =>
    cases h
    exact .refl
  | succ n ih =>
    obtain ⟨c, hc, hb⟩ := Option.bind_eq_some_iff.1 h
    exact .head hc (ih hb)

theorem transGen_of_after? (h : f.after? (n + 1) a = some b) : TransGen f.Follows a b := by
  obtain ⟨c, hc, hb⟩ := Option.bind_eq_some_iff.1 h
  exact .head' hc (reaches_of_after? hb)

/-- A chain can be followed in two parts. -/
theorem after?_add (f : Function) (n k : Nat) (a : Operand) : f.after? (n + k) a = (f.after? n a).bind (f.after? k) := by
  induction n generalizing a with
  | zero => rw [Nat.zero_add, after?, Option.bind_some]
  | succ n ih =>
    rw [Nat.succ_add, after?, after?, Option.bind_assoc]
    exact congrArg _ (funext ih)

/-! ## 2. Chains that come back -/

/-- What stands on a loop leads back to it. -/
theorem loop_of_follows (h : TransGen f.Follows a a) (hb : f.Follows a b) : TransGen f.Follows b b := by
  obtain ⟨c, hc, hback⟩ := TransGen.head'_iff.1 h
  obtain rfl := follows_unique hb hc
  exact .tail' hback hb

/-- A chain that comes back goes on. -/
theorem Loops.follows (h : f.Loops op) : ∃ b, f.Follows op b ∧ f.Loops b := by
  obtain ⟨a, hop, ha⟩ := h
  obtain rfl | ⟨b, hb, hrest⟩ := hop.cases_head
  · obtain ⟨b, hb, -⟩ := TransGen.head'_iff.1 ha
    exact ⟨b, hb, b, .refl, loop_of_follows ha hb⟩
  · exact ⟨b, hb, a, hrest, ha⟩

theorem Loops.reaches (h : f.Loops op) (hb : ReflTransGen f.Follows op b) : f.Loops b := by
  induction hb with
  | refl => exact h
  | tail _ hstep ih =>
    obtain ⟨c, hc, hloops⟩ := ih.follows
    obtain rfl := follows_unique hstep hc
    exact hloops

theorem Loops.not_ends (h : f.Loops op) (hb : ReflTransGen f.Follows op b) : f.next? b ≠ none := by
  obtain ⟨c, hc, -⟩ := (h.reaches hb).follows
  rw [show f.next? b = some c from hc]
  exact Option.some_ne_none c

/-- A chain that is longer than there are instructions meets one of them twice. -/
theorem loops_of_after? (h : f.after? (f.insts.length + 1) op = some b) : f.Loops op := by
  have hinst : ∀ k : Fin (f.insts.length + 1), ∃ i : Fin f.insts.length, f.after? k op = some (.inst i) := by
    intro k
    have hsplit : (k : Nat) + (f.insts.length - k + 1) = f.insts.length + 1 := by omega
    rw [← hsplit, after?_add] at h
    obtain ⟨a, ha, hrest⟩ := Option.bind_eq_some_iff.1 h
    obtain ⟨c, hc, -⟩ := Option.bind_eq_some_iff.1 hrest
    obtain ⟨i, inst, rfl, hi, -⟩ := Follows.exists_inst hc
    exact ⟨⟨i, (List.getElem?_eq_some_iff.1 hi).1⟩, ha⟩
  choose number hnumber using hinst
  obtain ⟨j, k, hne, heq⟩ := Fintype.exists_ne_map_eq_of_card_lt number (by simp)
  wlog hlt : j < k generalizing j k
  · exact this k j hne.symm heq.symm (lt_of_le_of_ne (not_lt.1 hlt) hne.symm)
  -- from the first time on, the second time is behind
  have hsplit : (j : Nat) + ((k - j - 1 : Nat) + 1) = k := by omega
  have hback := hnumber k
  rw [← hsplit, after?_add, hnumber j, ← heq, Option.bind_some] at hback
  exact ⟨_, reaches_of_after? (hnumber j), transGen_of_after? hback⟩

/-! ## 3. Chains that end -/

theorem exists_last (h : f.after? (n + 1) op = none) :
    ∃ k ≤ n, ∃ last, f.after? k op = some last ∧ f.next? last = none := by
  induction n generalizing op with
  | zero =>
    refine ⟨0, Nat.le_refl 0, op, rfl, ?_⟩
    cases hnext : f.next? op with
    | none => rfl
    | some b => simp [after?, hnext] at h
  | succ n ih =>
    cases hnext : f.next? op with
    | none => exact ⟨0, Nat.zero_le _, op, rfl, hnext⟩
    | some b =>
      rw [after?, hnext, Option.bind_some] at h
      obtain ⟨k, hk, last, hlast, hend⟩ := ih h
      exact ⟨k + 1, Nat.succ_le_succ hk, last, by rw [after?, hnext, Option.bind_some, hlast], hend⟩

/-- A chain comes back, or ends within as many steps as there are instructions. -/
theorem loops_or_ends (f : Function) (op : Operand) :
    f.Loops op ∨ ∃ n ≤ f.insts.length, ∃ last, f.after? n op = some last ∧ f.next? last = none := by
  cases h : f.after? (f.insts.length + 1) op with
  | none => exact Or.inr (exists_last h)
  | some b => exact Or.inl (loops_of_after? h)

/-- A chain has one end. -/
theorem last_unique (hb : ReflTransGen f.Follows op b) (hc : ReflTransGen f.Follows op c) (hblast : f.next? b = none)
    (hclast : f.next? c = none) : b = c := by
  have hstay : ∀ {x y : Operand}, f.next? x = none → ReflTransGen f.Follows x y → x = y := by
    intro x y hx hxy
    obtain rfl | ⟨z, hz, -⟩ := hxy.cases_head
    · rfl
    · exact absurd (hx.symm.trans hz) nofun
  have hunique : Relator.RightUnique f.Follows := fun _ _ _ => follows_unique
  rcases ReflTransGen.total_of_right_unique hunique hb hc with hbc | hcb
  · exact hstay hblast hbc
  · exact (hstay hclast hcb).symm

/-! ## 4. The search -/

variable {id : FuncId}

theorem rootWithin_of_next (h : f.next? op = some b) : f.rootWithin id (n + 1) op = f.rootWithin id n b := by
  rw [rootWithin, h]

/-- At the end of a chain the search knows. -/
theorem rootWithin_of_last (h : f.next? op = none) : f.rootWithin id (n + 1) op = some (f.object? id op) := by
  rw [rootWithin, h]

theorem rootWithin_of_after? (h : f.after? n op = some b) (k : Nat) :
    f.rootWithin id (n + k) op = f.rootWithin id k b := by
  induction n generalizing op with
  | zero =>
    cases h
    rw [Nat.zero_add]
  | succ n ih =>
    obtain ⟨c, hc, hb⟩ := Option.bind_eq_some_iff.1 h
    rw [Nat.succ_add, rootWithin_of_next hc, ih hb]

/-- Along a chain that comes back nothing is ever found out. -/
theorem Loops.rootWithin (h : f.Loops op) (n : Nat) : f.rootWithin id n op = none := by
  induction n generalizing op with
  | zero => rfl
  | succ n ih =>
    obtain ⟨b, hb, hloops⟩ := h.follows
    rw [rootWithin_of_next hb, ih hloops]

/-- A search that may take more steps than there are instructions comes to the end of a chain. -/
theorem rootWithin_of_ends (hop : ReflTransGen f.Follows op last) (hlast : f.next? last = none)
    (hn : f.insts.length < n) : f.rootWithin id n op = some (f.object? id last) := by
  have hends := (loops_or_ends f op).resolve_left fun hloops => hloops.not_ends hop hlast
  obtain ⟨k, hk, last', hlast', hend⟩ := hends
  obtain rfl := last_unique hop (reaches_of_after? hlast') hlast hend
  obtain ⟨d, rfl⟩ := Nat.exists_eq_add_of_lt (lt_of_le_of_lt hk hn)
  rw [Nat.add_assoc, rootWithin_of_after? hlast', rootWithin_of_last hlast]

/-- The search has no end exactly along a chain that comes back. -/
theorem root?_eq_none : f.root? id op = none ↔ f.Loops op := by
  refine ⟨fun h => ?_, fun h => h.rootWithin _⟩
  by_contra hloops
  obtain ⟨n, -, last, hop, hlast⟩ := (loops_or_ends f op).resolve_left hloops
  rw [root?, rootWithin_of_ends (reaches_of_after? hop) hlast (Nat.lt_succ_self _)] at h
  cases h

/-- A view or part points into what the address that it is computed from points into. -/
theorem root?_of_next (h : f.next? op = some b) : f.root? id op = f.root? id b := by
  rcases loops_or_ends f b with hloops | ⟨n, -, last, hb, hlast⟩
  · obtain ⟨a, hb, ha⟩ := hloops
    rw [root?_eq_none.mpr ⟨a, .head h hb, ha⟩, root?_eq_none.mpr ⟨a, hb, ha⟩]
  · have hb := reaches_of_after? hb
    unfold root?
    rw [rootWithin_of_ends hb hlast (Nat.lt_succ_self _), rootWithin_of_ends (.head h hb) hlast (Nat.lt_succ_self _)]

end RangedIR.Function
