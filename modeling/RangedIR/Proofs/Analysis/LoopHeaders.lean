/-
RangedIR.Proofs.Analysis.LoopHeaders — what is known of unions at the header of a loop.

A block that is entered before one of its predecessors heads a loop, and starts without what
the loop may write. A slot is tested by the object that it lies in; a union is tested by its
root. The two differ for a union at an element whose offset is not known: it outlasts the
writes to its object.
-/
import RangedIR.Proofs.Analysis.Derivation
import RangedIR.Proofs.Analysis.Memory

namespace RangedIR

open Relation

/-! ## 1. Headers -/

/-- An object may be written in the loop of a header and its latches, as far as the effects
of the loop tell. Where there is no object, only a loop that may write everything writes it. -/
def Frame.loopMayWrite (f : Frame) (m : Module) (header : BlockId) (latches : List BlockId)
    (object : Option ValueKey) : Bool :=
  match (f.loopEffects m header latches).join with
  | some e => e.everything || object.any (e.hits m)
  | none => true

namespace State

/-- The predecessors of a block that were not gone through yet. -/
def latches (s : State) (b : BlockId) : List BlockId :=
  (s.frame.predecessors[b]?.getD []).filter fun p => !s.frame.exits.contains p

/-- What is known at the start of a block from the predecessors that were gone through. -/
def knownStart (s : State) (m : Module) (b : BlockId) : MemoryState :=
  match MemoryState.joinAll ((s.frame.predecessors[b]?.getD []).filterMap s.frame.exits.find?) with
  | some joined => joined
  | none => if b = 0 then s.frame.snapshot m s.bounds else .unknown

variable {s : State} {m : Module} {b : BlockId}

/-- A header starts with what is known from outside the loop, without the effects of the loop. -/
theorem entryState_of_latches (h : s.latches b ≠ []) :
    s.entryState m b = some (((s.frame.loopEffects m b (s.latches b)).join.map
      (s.frame.havoc m (s.knownStart m b))).getD .unknown) := by
  have hempty : (s.latches b).isEmpty = false := by rwa [List.isEmpty_eq_false_iff]
  unfold latches at hempty
  unfold entryState
  dsimp only
  rw [hempty, Bool.and_false, Bool.false_and, if_neg Bool.false_ne_true, if_neg Bool.false_ne_true]
  unfold latches
  cases (s.frame.loopEffects m b ((s.frame.predecessors[b]?.getD []).filter fun p => !s.frame.exits.contains p)).join with
  | some e => rfl
  | none => rfl

theorem enterBlock_of_latches (h : s.latches b ≠ []) :
    s.enterBlock m b = s.restore m (((s.frame.loopEffects m b (s.latches b)).join.map
      (s.frame.havoc m (s.knownStart m b))).getD .unknown) := by
  unfold enterBlock
  rw [entryState_of_latches h]

/-- The slots of an object that the loop may write are not known at its header. -/
theorem get?_enterBlock_written (h : s.latches b ≠ []) {key : ValueKey} (hmem : key ∈ s.frame.memoryKeys m)
    (hwritten : s.frame.loopMayWrite m b (s.latches b) (s.frame.keyRoot key) = true) :
    (s.enterBlock m b).bounds.get? key = none := by
  rw [enterBlock_of_latches h]
  refine (Frame.get?_restoreSlots s.frame m s.bounds _ key).trans ?_
  rw [if_pos hmem]
  unfold Frame.loopMayWrite at hwritten
  cases he : (s.frame.loopEffects m b (s.latches b)).join with
  | none => rfl
  | some e =>
    rw [he] at hwritten
    refine Option.eq_none_iff_forall_ne_some.mpr fun i hi => ?_
    obtain ⟨heverything, -, r, hr, hhits⟩ := Frame.find?_havoc hi
    simp [heverything, hr, hhits] at hwritten

end State

/-! ## 2. Unions -/

theorem Frame.find?_havoc_unions (f : Frame) (m : Module) (start : MemoryState) (e : Effects) (u : ValueKey) :
    ((f.havoc m start e).unions.find? u).getD .untyped =
      if e.everything || e.hits m u then .untyped else (start.unions.find? u).getD .untyped := by
  unfold havoc
  cases e.everything with
  | true => rfl
  | false =>
    rw [if_neg Bool.false_ne_true, Bool.false_or, Table.find?_mapValues]
    cases start.unions.find? u with
    | none => split_ifs <;> rfl
    | some state => split_ifs <;> rfl

namespace State

variable {s : State} {m : Module} {b : BlockId} {u : ValueKey}

/-- At a header a union is tested by its root. -/
theorem find?_enterBlock_unions (h : s.latches b ≠ []) (hu : s.frame.aliases.unions.contains u = true) :
    (s.enterBlock m b).frame.aliases.unions.find? u =
      some (if s.frame.loopMayWrite m b (s.latches b) (some u) then .untyped
        else ((s.knownStart m b).unions.find? u).getD .untyped) := by
  obtain ⟨state, hstate⟩ := Option.isSome_iff_exists.mp hu
  rw [enterBlock_of_latches h]
  refine (Table.find?_mapValues s.frame.aliases.unions _ u).trans ?_
  rw [hstate, Option.map_some, Table.getD]
  unfold Frame.loopMayWrite
  cases (s.frame.loopEffects m b (s.latches b)).join with
  | none => rfl
  | some e => exact congrArg some (Frame.find?_havoc_unions s.frame m (s.knownStart m b) e u)

/-- At the header of a loop, nothing is known of the slots of an object that the loop may write.
A union in the object holds nothing known either, unless its root is not the object but an
address computed from it, and the effects of the loop do not name this address. Such a union
holds what it held before the loop. -/
theorem header_keeps_only_unions_at_computed_roots (hlatches : s.latches b ≠ [])
    (hu : s.frame.aliases.unions.contains u = true)
    (hwritten : s.frame.loopMayWrite m b (s.latches b) (s.frame.keyRoot u) = true) :
    let t := s.enterBlock m b
    (∀ key ∈ s.frame.memoryKeys m, s.frame.keyRoot key = s.frame.keyRoot u → t.bounds.get? key = none) ∧
      (t.frame.aliases.unions.find? u = some .untyped ∨
        (∃ object, s.frame.keyRoot u = some object ∧ TransGen (s.frame.function.Derives s.frame.id) u object) ∧
        s.frame.loopMayWrite m b (s.latches b) (some u) = false ∧
        t.frame.aliases.unions.find? u = some (((s.knownStart m b).unions.find? u).getD .untyped)) := by
  refine ⟨fun key hmem hroot => get?_enterBlock_written hlatches hmem (hroot.symm ▸ hwritten), ?_⟩
  have hfind := find?_enterBlock_unions (m := m) hlatches hu
  cases hself : s.frame.loopMayWrite m b (s.latches b) (some u) with
  | true => exact Or.inl (by rw [hfind, hself, if_pos rfl])
  | false =>
    refine Or.inr ⟨?_, rfl, by rw [hfind, hself, if_neg Bool.false_ne_true]⟩
    -- a root that is its own object would have been named
    cases hobject : s.frame.keyRoot u with
    | none =>
      unfold Frame.loopMayWrite at hself hwritten
      cases he : (s.frame.loopEffects m b (s.latches b)).join <;> simp_all
    | some object =>
      refine ⟨object, rfl, ?_⟩
      rcases Relation.reflTransGen_iff_eq_or_transGen.mp (Function.derived_of_keyRoot hobject) with heq | hderived
      · rw [hobject, heq, hself] at hwritten
        cases hwritten
      · exact hderived

end State

/-! ## 3. A union at an element -/

/-- Views an element of an array and a single cell as another type, stores 5 in both, and
writes the array and the cell in a loop, whose header reads the element. -/
def spinner : Function where
  name := "main"
  retTy := .int 32
  params := [⟨"i", .int 32⟩, ⟨"c", .int 1⟩]
  rangeType := none
  blocks := [⟨"entry", [0, 1, 2, 3, 4, 5, 6, 7]⟩, ⟨"head", [8, 9]⟩, ⟨"body", [10, 11, 12, 13]⟩, ⟨"done", [14]⟩]
  insts := [
    ⟨some "a", .alloca (.array 4 (.int 32)) none, .ptr (.array 4 (.int 32)), none, 0, false⟩,
    ⟨some "e", .elementPtr false (.array 4 (.int 32)) (.inst 0) (.ptr (.array 4 (.int 32)))
      [(.int 32, .const (.int 0)), (.int 32, .arg 0)], .ptr (.int 32), none, 0, false⟩,
    ⟨some "w", .view (.inst 1) (.ptr (.int 32)), .ptr .float, none, 0, false⟩,
    ⟨some "x", .alloca (.int 32) none, .ptr (.int 32), none, 0, false⟩,
    ⟨some "y", .view (.inst 3) (.ptr (.int 32)), .ptr .float, none, 0, false⟩,
    ⟨none, .store (.const (.int 5)) (.int 32) (.inst 1) (.ptr (.int 32)) none, .void, none, 0, false⟩,
    ⟨none, .store (.const (.int 5)) (.int 32) (.inst 3) (.ptr (.int 32)) none, .void, none, 0, false⟩,
    ⟨none, .br 1, .void, none, 0, false⟩,
    ⟨some "v", .load (.inst 1) (.ptr (.int 32)) none, .int 32, none, 0, false⟩,
    ⟨none, .condBr (.arg 1) 2 3, .void, none, 0, false⟩,
    ⟨some "p", .elementPtr false (.array 4 (.int 32)) (.inst 0) (.ptr (.array 4 (.int 32)))
      [(.int 32, .const (.int 0)), (.int 32, .const (.int 1))], .ptr (.int 32), none, 0, false⟩,
    ⟨none, .store (.const (.int 7)) (.int 32) (.inst 10) (.ptr (.int 32)) none, .void, none, 0, false⟩,
    ⟨none, .store (.const (.int 7)) (.int 32) (.inst 3) (.ptr (.int 32)) none, .void, none, 0, false⟩,
    ⟨none, .br 1, .void, none, 0, false⟩,
    ⟨none, .ret (some (.int 32, .inst 8)), .void, none, 0, false⟩]

/-- The module of the function. -/
def spinning : Context := ⟨⟨none, [], [], [], [spinner]⟩, .default, .default, true⟩

namespace State

/-- The function before its loop. -/
def beforeSpinning : State :=
  performAll spinning (descent spinning 0) (spinner.upTo 1) (ofCall Run.initial.restart 0 spinner (.ofSeeds .empty) none)

/-- The cell is its own object: the header forgets what the union at it held. -/
theorem header_keeps_only_unions_at_computed_roots_cell :
    beforeSpinning.frame.aliases.unions.find? (.inst 0 3) = some (.typed .i32 0 ⟨5.0, 5.0⟩) ∧
    (beforeSpinning.enterBlock spinning.module 1).frame.aliases.unions.find? (.inst 0 3) = some .untyped := by
  have h := (header_keeps_only_unions_at_computed_roots (s := beforeSpinning) (m := spinning.module) (b := 1)
    (u := .inst 0 3) (by decide) rfl rfl).2
  refine ⟨rfl, h.resolve_right fun ⟨_, hself, _⟩ => ?_⟩
  have hwritten : beforeSpinning.frame.loopMayWrite spinning.module 1 (beforeSpinning.latches 1) (some (.inst 0 3)) =
      true := rfl
  exact Bool.false_ne_true (hself.symm.trans hwritten)

/-- The element lies in the array, which the loop writes; the union at it holds 5 at the header
of the loop, and this is what the function is found to return. -/
theorem element_union_outlasts_loop :
    beforeSpinning.latches 1 = [2] ∧
    beforeSpinning.frame.aliases.unions.contains (.inst 0 1) = true ∧
    beforeSpinning.frame.keyRoot (.inst 0 1) = some (.inst 0 0) ∧
    beforeSpinning.frame.loopMayWrite spinning.module 1 (beforeSpinning.latches 1) (some (.inst 0 0)) = true ∧
    (beforeSpinning.enterBlock spinning.module 1).frame.aliases.unions.find? (.inst 0 1) =
      some (.typed .i32 0 ⟨5.0, 5.0⟩) ∧
    (analyzeFunction spinning .initial 0 (.ofSeeds .empty)).2.2 = some (.inst 8, ⟨5.0, 5.0⟩) :=
  ⟨rfl, rfl, rfl, rfl, rfl, rfl⟩

end State

end RangedIR
