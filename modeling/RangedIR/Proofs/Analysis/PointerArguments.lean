/-
RangedIR.Proofs.Analysis.PointerArguments — what a called function knows behind its addresses.

An address that is handed to a function stands there for what it points at: the parameter has
the entry of the address itself. A load looks elsewhere, under the key that stands for the
place of the address or in the union at its root. Both find the same as long as the place has
no other address.
-/
import RangedIR.Proofs.Analysis.Derivation

namespace RangedIR

open Relation

/-! ## 1. Parameters -/

namespace State

theorem get?_bindParameter (d : FuncId) (b : Bounds) (a : Option Bound) (i j : Nat) :
    (bindParameter d b (a, i)).get? (.arg d j) = if i = j then a.or (b.get? (.arg d j)) else b.get? (.arg d j) := by
  cases a with
  | none => simp [bindParameter]
  | some a => simp [bindParameter]

theorem get?_foldl_bindParameter (d : FuncId) (j : Nat) (args : List (Option Bound)) :
    ∀ (first : Nat) (b : Bounds), ((args.zipIdx first).foldl (bindParameter d) b).get? (.arg d j) =
      if first ≤ j then (args[j - first]?).join.or (b.get? (.arg d j)) else b.get? (.arg d j) := by
  induction args with
  | nil => simp
  | cons a rest ih =>
    intro first b
    rw [List.zipIdx_cons, List.foldl_cons, ih, get?_bindParameter]
    rcases Nat.lt_trichotomy j first with hj | rfl | hj
    · rw [if_neg (by omega), if_neg (by omega), if_neg (by omega)]
    · rw [if_neg (by omega), if_pos rfl, if_pos (Nat.le_refl j), Nat.sub_self]
      rfl
    · obtain ⟨k, rfl⟩ := Nat.exists_eq_add_of_lt hj
      rw [if_pos (by omega), if_neg (by omega), if_pos (by omega),
        show first + k + 1 - first = k + 1 by omega, show first + k + 1 - (first + 1) = k by omega,
        List.getElem?_cons_succ]

/-- In the scope of a function that is called, a parameter has what is known of its
argument. -/
theorem get?_calleeScope (b : Bounds) (d : FuncId) (args : List (Option Bound)) (j : Nat) :
    (calleeScope b d args).get? (.arg d j) = (args[j]?).join := by
  have hchild : b.child.get? (.arg d j) = none := Table.find?_filter b.ranges (fun k => k.isGlobal) (.arg d j)
  rw [calleeScope, get?_foldl_bindParameter, if_pos (Nat.zero_le j), hchild, Option.or_none, Nat.sub_zero]

end State

/-! ## 2. Arguments -/

/-- Two addresses are computed from one. -/
def Function.Related (f : Function) (id : FuncId) (a b : ValueKey) : Prop :=
  ∃ base, ReflTransGen (f.Derives id) a base ∧ ReflTransGen (f.Derives id) b base

namespace State

variable {s : State} {addr : ValueKey}

/-- An address in a union has a view among the addresses that are computed from the same. -/
theorem exists_view_of_isUnion (hs : s.frame.record.Traced) (h : s.frame.aliases.isUnion addr = true) :
    ∃ v, s.frame.function.IsView v ∧ s.frame.function.Related s.frame.id addr (.inst s.frame.id v) := by
  obtain ⟨v, hv, hderived⟩ := hs.unions _ (Table.mem_keys.mpr h)
  exact ⟨v, hv, _, Frame.Record.Traced.locate hs, hderived.to_reflTransGen⟩

/-- A read finds the entry of its address, unless the address lies in a union or another key
stands for its place. -/
theorem readAt_of_first (hunion : s.frame.aliases.isUnion addr = false) (hslot : s.frame.aliases.slot addr = addr)
    (ty : Ty) : s.readAt addr ty = s.bounds.get? addr := by
  unfold readAt
  rw [hunion, hslot]
  rfl

end State

/-- At every call to a defined function that is reached, a parameter for an address has the
entry of the address. That is what a load through the address yields, with three exceptions:
a literal is no address to load from; an address in a union is read from the union, and then
a view is computed from the same address; and a view or part whose place already had an address
is read by the entry of that first one. -/
theorem State.pointer_argument_has_own_entry {ctx : Context} {depth : Nat} {s : State} {i : InstId} {inst : Inst}
    {callee : String} {args : List (Ty × Operand)} {d : FuncId} {g : Function} (hs : s.Reachable ctx (depth + 1))
    (hcall : s.frame.function.CallsAt ctx.module i inst callee args d) (hg : ctx.module.functions[d]? = some g)
    (hfollowed : s.refusal? ctx d g.name = none) {j : Nat} {pointee : Ty} {op : Operand}
    (harg : args[j]? = some (.ptr pointee, op)) :
    (s.atCall i args d g).Reachable ctx depth ∧
    (s.atCall i args d g).bounds.get? (.arg d j) = s.operand? op ∧
    ((s.atCall i args d g).bounds.get? (.arg d j) = s.load pointee op ∨ (∃ c, op = .const c) ∨
      ∃ addr, s.frame.key? op = some addr ∧
        ((s.frame.aliases.isUnion addr = true ∧ ∃ v, s.frame.function.IsView v ∧
            s.frame.function.Related s.frame.id addr (.inst s.frame.id v)) ∨
          ∃ first base, first ≠ addr ∧ s.load pointee op = s.bounds.get? first ∧
            TransGen (s.frame.function.Derives s.frame.id) addr base ∧
            ReflTransGen (s.frame.function.Derives s.frame.id) first base)) := by
  have hbound : (s.atCall i args d g).bounds.get? (.arg d j) = s.operand? op := by
    refine (get?_calleeScope s.bounds d _ j).trans ?_
    rw [List.getElem?_map, harg]
    rfl
  refine ⟨.call hs hcall hg hfollowed, hbound, ?_⟩
  rw [hbound]
  cases haddr : s.frame.key? op with
  | none =>
    cases op with
    | const c => exact Or.inr (Or.inl ⟨c, rfl⟩)
    | undef => exact Or.inl rfl
    | inst k | arg k | global k => cases haddr
  | some addr =>
    have hload : s.load pointee op = s.readAt addr pointee := by
      unfold load
      rw [haddr, Option.bind_some]
    have hentry : s.operand? op = s.bounds.get? addr := Bounds.operand?_of_key haddr
    cases hunion : s.frame.aliases.isUnion addr with
    | true => exact Or.inr (Or.inr ⟨addr, rfl, Or.inl ⟨hunion, exists_view_of_isUnion hs.traced hunion⟩⟩)
    | false =>
      by_cases hslot : s.frame.aliases.slot addr = addr
      · refine Or.inl ?_
        rw [hload, readAt_of_first hunion hslot, hentry]
      · rcases Frame.Record.Traced.slot hs.traced with hown | ⟨place, -, hderived, hfirst⟩
        · exact absurd hown hslot
        · refine Or.inr (Or.inr ⟨addr, rfl, Or.inr ⟨_, place.1, hslot, ?_, hderived, hfirst⟩⟩)
          rw [hload, readAt, hunion]
          rfl

/-! ## 3. Two addresses of a field -/

/-- Reads what its argument points at. -/
def reader : Function where
  name := "get"
  retTy := .int 32
  params := [⟨"p", .ptr (.int 32)⟩]
  rangeType := none
  blocks := [⟨"entry", [0, 1]⟩]
  insts := [
    ⟨some "v", .load (.arg 0) (.ptr (.int 32)) none, .int 32, none, 0, false⟩,
    ⟨none, .ret (some (.int 32, .inst 0)), .void, none, 0, false⟩]

/-- Writes a field and has it read, twice, each time by a new address. -/
def rereader : Function where
  name := "main"
  retTy := .int 32
  params := []
  rangeType := none
  blocks := [⟨"entry", [0, 1, 2, 3, 4, 5, 6, 7]⟩]
  insts := [
    ⟨some "a", .alloca (.struct none [.int 32, .int 32]) none, .ptr (.struct none [.int 32, .int 32]), none, 0, false⟩,
    ⟨some "p", .elementPtr false (.struct none [.int 32, .int 32]) (.inst 0) (.ptr (.struct none [.int 32, .int 32]))
      [(.int 32, .const (.int 0)), (.int 32, .const (.int 1))], .ptr (.int 32), none, 0, false⟩,
    ⟨none, .store (.const (.int 3)) (.int 32) (.inst 1) (.ptr (.int 32)) none, .void, none, 0, false⟩,
    ⟨some "r", .call "get" [(.ptr (.int 32), .inst 1)], .int 32, none, 0, false⟩,
    ⟨some "q", .elementPtr false (.struct none [.int 32, .int 32]) (.inst 0) (.ptr (.struct none [.int 32, .int 32]))
      [(.int 32, .const (.int 0)), (.int 32, .const (.int 1))], .ptr (.int 32), none, 0, false⟩,
    ⟨none, .store (.const (.int 5)) (.int 32) (.inst 4) (.ptr (.int 32)) none, .void, none, 0, false⟩,
    ⟨some "t", .call "get" [(.ptr (.int 32), .inst 4)], .int 32, none, 0, false⟩,
    ⟨none, .ret (some (.int 32, .inst 6)), .void, none, 0, false⟩]

/-- The module of the two functions. -/
def rereading : Context := ⟨⟨none, [], [], [], [rereader, reader]⟩, .default, .default, true⟩

namespace State

/-- The second function after some of its instructions. -/
def rereaderAfter (n : Nat) : State :=
  (List.range n).foldl (fun s i => s.step rereading (descent rereading 1) i)
    (ofCall Run.initial.restart 0 rereader (.ofSeeds .empty) none)

theorem rereaderAfter_reachable {n : Nat} (hn : n ≤ 8) :
    (rereaderAfter n).Reachable rereading 1 ∧ (rereaderAfter n).frame.function = rereader :=
  Reachable.foldl_step (List.range n) (.root Run.initial (.ofSeeds .empty) rfl) fun i hi =>
    (List.mem_range.mpr ((List.mem_range.mp hi).trans_le hn) : i ∈ List.range 8)

theorem rereaderAfter_callsAt {n : Nat} (hn : n ≤ 8) {i : InstId} {inst : Inst} {args : List (Ty × Operand)}
    (h : rereader.CallsAt rereading.module i inst "get" args 1) :
    (rereaderAfter n).frame.function.CallsAt rereading.module i inst "get" args 1 := by
  rw [(rereaderAfter_reachable hn).2]
  exact h

/-- The first address of the field hands on what was stored through it. -/
theorem pointer_argument_has_own_entry_first :
    ((rereaderAfter 3).atCall 3 [(.ptr (.int 32), .inst 1)] 1 reader).bounds.get? (.arg 1 0) = some ⟨3.0, 3.0⟩ ∧
    (rereaderAfter 3).load (.int 32) (.inst 1) = some ⟨3.0, 3.0⟩ := by
  refine ⟨?_, by decide⟩
  obtain ⟨-, hbound, -⟩ := pointer_argument_has_own_entry (rereaderAfter_reachable (by decide : 3 ≤ 8)).1
    (rereaderAfter_callsAt (by decide) (show rereader.CallsAt rereading.module 3 _ "get" _ 1 from
      ⟨by decide, rfl, rfl, by decide, by decide⟩)) (g := reader) rfl (Option.isNone_iff_eq_none.mp (by decide))
    (j := 0) rfl
  rw [hbound]
  decide

/-- The second address of the field hands on what was stored before through the first, and not
what a load through it yields. -/
theorem second_field_address_hands_on_stale_pointee :
    (rereaderAfter 6).Reachable rereading 1 ∧
    (rereaderAfter 6).frame.function.CallsAt rereading.module 6
      ⟨some "t", .call "get" [(.ptr (.int 32), .inst 4)], .int 32, none, 0, false⟩ "get" [(.ptr (.int 32), .inst 4)] 1 ∧
    (rereaderAfter 6).refusal? rereading 1 "get" = none ∧
    ((rereaderAfter 6).atCall 6 [(.ptr (.int 32), .inst 4)] 1 reader).bounds.get? (.arg 1 0) = some ⟨3.0, 3.0⟩ ∧
    (rereaderAfter 6).load (.int 32) (.inst 4) = some ⟨5.0, 5.0⟩ :=
  ⟨(rereaderAfter_reachable (by decide)).1, rereaderAfter_callsAt (by decide) ⟨by decide, rfl, rfl, by decide, by decide⟩,
    Option.isNone_iff_eq_none.mp (by decide), by decide, by decide⟩

end State

end RangedIR
