/-
RangedIR.Proofs.Optimize.Simultaneous — results replaced by literals, all at once.

Arithmetic with one possible result is replaced by its literal and taken out, one
instruction after the other, while the ones that are left may use each other in any order.
A literal uses nothing, so the order does not matter: the outcome is that of one
substitution.
-/
import RangedIR.Optimize.Constants
import RangedIR.Proofs.Code.Edits

namespace RangedIR.Function

/-- Literals for some of the results of a function. -/
abbrev Literals := InstId → Option Constant

variable {S T : Literals} {f g h : Function} {i : InstId} {ids : List InstId} {id : FuncId} {b : Bounds}

/-! ## 1. Substitutions -/

/-- An operand, or the literal that stands for it. -/
def written (S : Literals) : Operand → Operand
  | .inst i => (S i).elim (.inst i) .const
  | op => op

/-- One literal. -/
def only (i : InstId) (c : Constant) : Literals := fun j => if j = i then some c else none

theorem written_only (i : InstId) (c : Constant) : written (only i c) = substitute i (.const c) := by
  funext op
  cases op with
  | inst j => by_cases hj : j = i <;> simp [written, only, substitute, Operand.inst?, hj]
  | _ => rfl

/-- Literals are not replaced any more. -/
theorem written_comp (S T : Literals) : written T ∘ written S = written fun i => (S i).or (T i) := by
  funext op
  cases op with
  | inst j => cases hj : S j <;> simp [written, hj]
  | _ => rfl

theorem written_none : written (fun _ => none) = fun op => op := by
  funext op
  cases op <;> rfl

theorem eq_none_of_written {op : Operand} (hop : written S op = .inst i) : S i = none := by
  cases op with
  | inst j =>
    cases hj : S j with
    | none =>
      rw [written, hj] at hop
      cases hop
      exact hj
    | some c => simp [written, hj] at hop
  | _ => cases hop

/-! ## 2. Functions after a substitution -/

/-- The function `g` is `f` after one substitution: the instructions that have literals are
taken out, all others stand in their order and use the literals. -/
structure Replaces (S : Literals) (f g : Function) : Prop where
  header : { g with blocks := f.blocks, insts := f.insts } = f
  blocks : g.blocks = f.blocks.map fun block => { block with insts := block.insts.filter fun i => (S i).isNone }
  kept : ∀ {i : InstId}, i ∈ f.layout → S i = none →
    g.inst? i = (f.inst? i).map fun inst => { inst with kind := inst.kind.mapOperands (written S) }
  gone : ∀ {i : InstId}, (S i).isSome = true → ∃ τ,
    g.inst? i = (f.inst? i).map fun inst => { inst with kind := inst.kind.mapOperands τ, erased := true }
  unlisted : ∀ {i : InstId}, i ∉ f.layout → S i = none → g.inst? i = f.inst? i

theorem Replaces.layout (hg : Replaces S f g) : g.layout = f.layout.filter fun i => (S i).isNone := by
  unfold Function.layout
  rw [hg.blocks, List.flatMap_map, List.filter_flatMap]

theorem Replaces.mem_layout (hg : Replaces S f g) : i ∈ g.layout ↔ i ∈ f.layout ∧ S i = none := by
  rw [hg.layout, List.mem_filter, Option.isNone_iff_eq_none]

theorem Replaces.refl (f : Function) : Replaces (fun _ => none) f f where
  header := rfl
  blocks := by simp
  kept _ _ := by simp [written_none, InstKind.mapOperands_id]
  gone hi := by cases hi
  unlisted _ _ := rfl

theorem Replaces.trans (hg : Replaces S f g) (hh : Replaces T g h) (hapart : ∀ i, (S i).isSome = true → T i = none) :
    Replaces (fun i => (S i).or (T i)) f h where
  header := (congrArg (fun k : Function => { k with blocks := f.blocks, insts := f.insts }) hh.header).trans hg.header
  blocks := by
    rw [hh.blocks, hg.blocks, List.map_map]
    refine List.map_congr_left fun block _ => ?_
    simp only [Function.comp_apply, List.filter_filter, Option.isNone_or, Bool.and_comm]
  kept {i} hi hnone := by
    obtain ⟨hS, hT⟩ := Option.or_eq_none_iff.mp hnone
    rw [hh.kept (hg.mem_layout.mpr ⟨hi, hS⟩) hT, hg.kept hi hS, Option.map_map, ← written_comp]
    simp only [Function.comp_def, InstKind.mapOperands_mapOperands]
  gone {i} hsome := by
    cases hS : S i with
    | some c =>
      have hsome : (S i).isSome = true := by rw [hS]; rfl
      have hout : i ∉ g.layout := fun hi => by simp [(hg.mem_layout.mp hi).2] at hsome
      obtain ⟨τ, hτ⟩ := hg.gone hsome
      exact ⟨τ, (hh.unlisted hout (hapart i hsome)).trans hτ⟩
    | none =>
      rw [hS, Option.none_or] at hsome
      obtain ⟨τ, hτ⟩ := hh.gone hsome
      by_cases hi : i ∈ f.layout
      · refine ⟨τ ∘ written S, ?_⟩
        rw [hτ, hg.kept hi hS, Option.map_map]
        simp only [Function.comp_def, InstKind.mapOperands_mapOperands]
      · exact ⟨τ, by rw [hτ, hg.unlisted hi hS]⟩
  unlisted {i} hi hnone := by
    obtain ⟨hS, hT⟩ := Option.or_eq_none_iff.mp hnone
    rw [hh.unlisted (fun hmem => hi (hg.mem_layout.mp hmem).1) hT, hg.unlisted hi hS]

theorem Replaces.kind?_eq (hg : Replaces S f g) {u : InstId} (hu : u ∈ g.layout) :
    g.kind? u = (f.kind? u).map fun k => k.mapOperands (written S) := by
  obtain ⟨hlive, hnone⟩ := hg.mem_layout.mp hu
  unfold kind?
  rw [hg.kept hlive hnone, Option.map_map, Option.map_map]
  rfl

/-- Nothing that is left uses what is taken out. -/
theorem Replaces.eq_none_of_operand (hg : Replaces S f g) {u j : InstId} {k : InstKind} (hu : u ∈ g.layout)
    (hk : g.kind? u = some k) (hj : .inst j ∈ k.operands) : S j = none := by
  rw [hg.kind?_eq hu] at hk
  obtain ⟨old, -, rfl⟩ := Option.map_eq_some_iff.mp hk
  rw [InstKind.operands_mapOperands] at hj
  obtain ⟨op, -, hop⟩ := List.mem_map.mp hj
  exact eq_none_of_written hop

/-- Where all instructions were live, those that are taken out are the erased ones. -/
theorem Replaces.erased_iff (hg : Replaces S f g) (hf : f.Placed)
    (hall : ∀ {i : InstId} {inst : Inst}, f.inst? i = some inst → i ∈ f.layout) {inst : Inst}
    (hinst : g.inst? i = some inst) : inst.erased = true ↔ (S i).isSome = true := by
  cases hS : S i with
  | none =>
    by_cases hi : i ∈ f.layout
    · obtain ⟨_, hstands⟩ := Function.mem_layout.mp hi
      obtain ⟨old, hold, -, hlive⟩ := hf.placed hstands
      rw [hg.kept hi hS, hold] at hinst
      cases hinst
      simp [hlive]
    · rw [hg.unlisted hi hS] at hinst
      exact absurd (hall hinst) hi
  | some c =>
    obtain ⟨τ, hτ⟩ := hg.gone (i := i) (by rw [hS]; rfl)
    rw [hτ] at hinst
    obtain ⟨old, -, rfl⟩ := Option.map_eq_some_iff.mp hinst
    simp

theorem replaces_replaceBy (hf : f.Placed) (hi : i ∈ f.layout) (c : Constant) :
    Replaces (only i c) f (f.replaceBy i (.const c)) where
  header := by
    unfold replaceBy Function.erase
    split <;> rfl
  blocks := by
    rw [blocks_replaceBy_eq_map hf]
    refine List.map_congr_left fun block _ => ?_
    congr 1
    refine List.filter_congr fun j _ => ?_
    by_cases hj : j = i <;> simp [only, hj]
  kept {j} hj hnone := by
    have hne : j ≠ i := by
      rintro rfl
      simp [only] at hnone
    rw [inst?_replaceBy _ hj hne, written_only]
  gone {j} hsome := by
    have hji : j = i := by
      by_contra hne
      simp [only, hne] at hsome
    refine ⟨substitute i (.const c), ?_⟩
    unfold replaceBy
    rw [inst?_erase, inst?_replaceUses, Option.map_map]
    simp only [Function.comp_def, hji, hi, if_true]
  unlisted {j} hj hnone := by
    have hne : j ≠ i := fun heq => hj (heq ▸ hi)
    unfold replaceBy
    rw [inst?_erase, inst?_replaceUses, Option.map_map]
    simp [Function.comp_def, hj, hne]

/-! ## 3. The pass -/

/-- Whether there is a literal depends on the instruction alone, and not on its operands. -/
theorem literalResult?_eq {τ : Operand → Operand}
    (hi : g.inst? i = (f.inst? i).map fun inst => { inst with kind := inst.kind.mapOperands τ }) :
    g.literalResult? id b i = f.literalResult? id b i := by
  unfold literalResult?
  rw [hi]
  cases f.inst? i with
  | none => rfl
  | some inst =>
    obtain ⟨name, kind, ty, dbg, block, erased⟩ := inst
    cases kind <;> rfl

/-- Going through some instructions replaces those that have literals. -/
theorem replaces_substituteIn (id : FuncId) (b : Bounds) (hf : f.Placed) (hnodup : ids.Nodup)
    (hids : ∀ i ∈ ids, i ∈ f.layout) :
    Replaces (fun i => if i ∈ ids then f.literalResult? id b i else none) f (substituteIn id b ids f).1 ∧
      (substituteIn id b ids f).2 = ids.countP fun i => (f.literalResult? id b i).isSome := by
  induction ids generalizing f with
  | nil => exact ⟨by simpa [substituteIn] using Replaces.refl f, rfl⟩
  | cons i rest ih =>
    obtain ⟨hnot, hnodup⟩ := List.nodup_cons.mp hnodup
    have hi := hids i List.mem_cons_self
    have hrest : ∀ j ∈ rest, j ∈ f.layout := fun j hj => hids j (List.mem_cons_of_mem _ hj)
    unfold substituteIn
    split
    next c hc =>
      have hne : ∀ {j}, j ∈ rest → j ≠ i := fun hj heq => hnot (heq ▸ hj)
      -- What is still to be looked at has the literals that it had.
      have hsame : ∀ j ∈ rest, (f.replaceBy i (.const c)).literalResult? id b j = f.literalResult? id b j :=
        fun j hj => literalResult?_eq (inst?_replaceBy _ (hrest j hj) (hne hj))
      obtain ⟨hreplaces, hcount⟩ := ih (hf.replaceBy i (.const c)) hnodup fun j hj =>
        (mem_layout_replaceBy hf).mpr ⟨hne hj, hrest j hj⟩
      constructor
      · convert (replaces_replaceBy hf hi c).trans hreplaces fun j hj => ?_ using 2 with j
        · by_cases hj : j = i
          · simp [hj, hc, only]
          · by_cases hjr : j ∈ rest <;> simp [hj, hjr, only, hsame]
        · have hji : j = i := by
            by_contra hne
            simp [only, hne] at hj
          simp [hji, hnot]
      · simp only [hcount, List.countP_cons, hc, Option.isSome_some, if_true]
        rw [List.countP_congr fun j hj => by rw [hsame j hj]]
    next hnone =>
      obtain ⟨hreplaces, hcount⟩ := ih hf hnodup hrest
      constructor
      · convert hreplaces using 2 with j
        by_cases hj : j = i
        · simp [hj, hnone]
        · simp [hj]
      · simp [hcount, hnone]

theorem substituteIn_of_none (hids : ∀ i ∈ ids, f.literalResult? id b i = none) : substituteIn id b ids f = (f, 0) := by
  induction ids with
  | nil => rfl
  | cons i rest ih =>
    unfold substituteIn
    rw [hids i List.mem_cons_self]
    exact ih fun j hj => hids j (List.mem_cons_of_mem _ hj)

/-- A live arithmetic instruction has one number as its interval, and its type has a literal
for that number. -/
def HasLiteral (f : Function) (id : FuncId) (b : Bounds) (i : InstId) (c : Constant) : Prop :=
  ∃ inst op lhs rhs r, i ∈ f.layout ∧ f.inst? i = some inst ∧ inst.kind = .binary op lhs rhs ∧
    b.get? (.inst id i) = some r ∧ r.isSingleton = true ∧ Constant.forType? inst.ty r.lo = some c

theorem hasLiteral_iff (hf : f.Placed) {c : Constant} : f.HasLiteral id b i c ↔
    i ∈ f.layout ∧ f.literalResult? id b i = some c := by
  rw [literalResult?_eq_some]
  constructor
  · rintro ⟨inst, op, lhs, rhs, r, hi, hinst, hkind, hr, hone, hc⟩
    obtain ⟨_, hstands⟩ := Function.mem_layout.mp hi
    obtain ⟨inst', hinst', -, hlive⟩ := hf.placed hstands
    rw [Option.some.inj (hinst'.symm.trans hinst)] at hlive
    exact ⟨hi, inst, op, lhs, rhs, r, hinst, hkind, hr, hlive, hone, hc⟩
  · rintro ⟨hi, inst, op, lhs, rhs, r, hinst, hkind, hr, -, hone, hc⟩
    exact ⟨inst, op, lhs, rhs, r, hi, hinst, hkind, hr, hone, hc⟩

/-- **Constant substitution is one simultaneous substitution.** Let `S` have a literal for
each live arithmetic instruction whose interval is a single number that its type can
write. Of a function that was read, exactly these instructions are erased; the others keep
their places, with the literals for operands; the count is the number of literals; no
operand names an erased instruction, and another run changes nothing. -/
theorem substituteConstants_simultaneous {items : List Source.Item} {m : Module} (hm : Scope.resolve items = .ok m)
    (hf : f ∈ m.functions) (id : FuncId) (b : Bounds) :
    let g := (f.substituteConstants id b).1
    ∃ S : Literals, (∀ i c, S i = some c ↔ f.HasLiteral id b i c) ∧ Replaces S f g ∧
      (∀ i inst, g.inst? i = some inst → (inst.erased = true ↔ (S i).isSome = true)) ∧
      (f.substituteConstants id b).2 = f.layout.countP (fun i => (S i).isSome) ∧
      (∀ u ∈ g.layout, ∀ k, g.kind? u = some k → ∀ j, .inst j ∈ k.operands → S j = none) ∧
      g.substituteConstants id b = (g, 0) := by
  intro g
  have hplaced := (intact_of_resolve hm hf).toPlaced
  obtain ⟨hreplaces, hcount⟩ := replaces_substituteIn id b hplaced hplaced.nodup fun _ hi => hi
  change Replaces _ f g at hreplaces
  refine ⟨_, fun i c => ?_, hreplaces, fun i inst hi => ?_, ?_, fun u hu k hk j hj => hreplaces.eq_none_of_operand hu hk hj, ?_⟩
  · rw [hasLiteral_iff hplaced, Option.ite_none_right_eq_some]
  · exact hreplaces.erased_iff hplaced (mem_layout_of_resolve hm hf) hi
  · exact hcount.trans (List.countP_congr fun i hi => by rw [if_pos hi])
  · refine substituteIn_of_none fun i hi => ?_
    obtain ⟨hlive, hnone⟩ := hreplaces.mem_layout.mp hi
    rw [literalResult?_eq (hreplaces.kept hlive hnone)]
    rwa [if_pos hlive] at hnone

/-- A sum that is used behind it and, through a phi, before it. -/
def counting : List Source.Item := [
  .define ⟨.ofName "f", .int 32, [], none, [
    ⟨.ofName "entry", [⟨none, .br (.ofName "loop"), none, ⟨0, 0⟩⟩]⟩,
    ⟨.ofName "loop", [
      ⟨some (.ofName "p"), .phi (.int 32) [(.lit (.int 0), .ofName "entry"), (.loc (.ofName "b"), .ofName "loop")], none, ⟨0, 0⟩⟩,
      ⟨some (.ofName "a"), .binary .add (.int 32) (.lit (.int 1)) (.lit (.int 2)), none, ⟨0, 0⟩⟩,
      ⟨some (.ofName "b"), .binary .mul (.int 32) (.loc (.ofName "a")) (.loc (.ofName "a")), none, ⟨0, 0⟩⟩,
      ⟨none, .br (.ofName "loop"), none, ⟨0, 0⟩⟩]⟩], ⟨0, 0⟩⟩]

/-- The sum is three and its square nine. -/
def countingBounds : Bounds :=
  ((Bounds.ofSeeds .empty).insert (.inst 0 2) (.singleton 3.0)).insert (.inst 0 3) (.singleton 9.0)

theorem substituteConstants_simultaneous_counting : ∃ m f, Scope.resolve counting = .ok m ∧ f ∈ m.functions ∧
    (f.substituteConstants 0 countingBounds).1.kind? 1 = some (.phi [(.const (.int 0), 0), (.const (.int 9), 1)]) ∧
    (f.substituteConstants 0 countingBounds).1.substituteConstants 0 countingBounds =
      ((f.substituteConstants 0 countingBounds).1, 0) := by
  have hread : ∃ m f, Scope.resolve counting = .ok m ∧ f ∈ m.functions ∧ (f.substituteConstants 0 countingBounds).1.kind? 1 =
      some (.phi [(.const (.int 0), 0), (.const (.int 9), 1)]) := ⟨_, _, rfl, List.mem_singleton_self _, rfl⟩
  obtain ⟨m, f, hm, hf, hkind⟩ := hread
  obtain ⟨S, -, -, -, -, -, hagain⟩ := substituteConstants_simultaneous hm hf 0 countingBounds
  exact ⟨m, f, hm, hf, hkind, hagain⟩

end RangedIR.Function
