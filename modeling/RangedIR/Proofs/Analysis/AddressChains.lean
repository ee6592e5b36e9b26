/-
RangedIR.Proofs.Analysis.AddressChains — chains of addresses that are computed from addresses.

An instruction may refer to what stands behind it, and to itself, and this is not only so for
phis and branches: a view of an address may be a view of itself. So a chain of addresses either
ends, within as many steps as there are instructions, or comes back to an instruction of it. A
chain that comes back has no object, however far it is followed. Where addresses are computed
from what stands before them every chain ends.
-/
import RangedIR.Proofs.Analysis.Derivation
import RangedIR.Proofs.Scope.Resolution
import RangedIR.Proofs.Scope.RoundTrip

namespace RangedIR

open Relation

namespace Function

/-! ## 1. Chains that go back -/

variable {f : Function} {b op : Operand}

/-- Where addresses are computed from what stands before them, no chain comes back. -/
theorem not_loops_of_backward
    (h : ∀ i j, ReflTransGen f.Follows op (.inst i) → f.Follows (.inst i) (.inst j) → j < i) : ¬ f.Loops op := by
  rintro ⟨a, hop, ha⟩
  obtain ⟨_, hfirst, -⟩ := TransGen.head'_iff.1 ha
  obtain ⟨i, -, rfl, -, -⟩ := hfirst.exists_inst
  have hless : ∀ b, TransGen f.Follows (.inst i) b → ∀ j, b = .inst j → j < i := by
    intro b hb
    induction hb with
    | single hstep =>
      rintro j rfl
      exact h i j hop hstep
    | tail hreach hstep ih =>
      rintro j rfl
      obtain ⟨k, -, rfl, -, -⟩ := hstep.exists_inst
      exact (h k j (hop.trans hreach.to_reflTransGen) hstep).trans (ih k rfl)
  exact (hless _ ha i rfl).false

/-! ## 2. Objects -/

variable {id : FuncId}

/-- What stands at the end of a chain, and the object that it is. -/
inductive ObjectOf (m : Module) (f : Function) (id : FuncId) : Operand → Option ValueKey → Prop
  | alloca {i : InstId} {ty : Ty} {align : Option Nat} :
    f.kind? i = some (.alloca ty align) → ObjectOf m f id (.inst i) (some (.inst id i))
  | param {k : Nat} : k < f.params.length → ObjectOf m f id (.arg k) (some (.arg id k))
  | global {g : GlobalId} : g < m.globals.length → ObjectOf m f id (.global g) (some (.global g))
  | undef : ObjectOf m f id .undef none
  | literal (c : Constant) : ObjectOf m f id (.const c) none
  | other {i : InstId} {k : InstKind} : f.kind? i = some k → (∀ v src, k = .view v src → src.isPointer = false) →
    (∀ inbounds source base baseTy indices, k ≠ .elementPtr inbounds source base baseTy indices) →
    (∀ ty align, k ≠ .alloca ty align) → ObjectOf m f id (.inst i) none

theorem objectOf_of_last {m : Module} (hop : op.Exists m f) (h : f.next? op = none) :
    ObjectOf m f id op (f.object? id op) := by
  cases op with
  | inst i =>
    obtain ⟨k, hk⟩ : ∃ k, f.kind? i = some k := by
      rw [kind?, inst?, List.getElem?_eq_getElem hop]
      exact ⟨_, rfl⟩
    simp only [next?, hk] at h
    simp only [object?, hk]
    cases k with
    | alloca ty align => exact .alloca hk
    | view v src =>
      dsimp only at h
      split_ifs at h with hsrc
      refine .other hk ?_ (by simp) (by simp)
      rintro _ _ ⟨⟩
      exact Bool.not_eq_true _ ▸ hsrc
    | elementPtr => cases h
    | _ => exact .other hk (by simp) (by simp) (by simp)
  | arg k => exact .param hop
  | global g => exact .global hop
  | undef => exact .undef
  | const c => exact .literal c

/-- The chain of an address ends, no later than after as many steps as there are instructions,
and whoever follows it so far finds the object at its end. -/
def EndsAtObject (f : Function) (m : Module) (id : FuncId) (op : Operand) : Prop :=
  ∃ n ≤ f.insts.length, ∃ last r, f.after? n op = some last ∧ f.next? last = none ∧ ObjectOf m f id last r ∧
    f.addressRoot id op = r ∧ ∀ fuel, f.insts.length < fuel → f.rootWithin id fuel op = some r

/-- The chain of an address goes on without end, through an instruction that is computed from
itself or from one behind it, and no object is found. -/
structure NeverEnds (f : Function) (id : FuncId) (op : Operand) : Prop where
  goesOn : ∀ n, (f.after? n op).isSome = true
  noObject : ∀ fuel, f.rootWithin id fuel op = none
  notBackward : ∃ i j, ReflTransGen f.Follows op (.inst i) ∧ f.Follows (.inst i) (.inst j) ∧ i ≤ j

theorem Loops.after? (h : f.Loops op) (n : Nat) : (f.after? n op).isSome = true := by
  induction n generalizing op with
  | zero => rfl
  | succ n ih =>
    obtain ⟨b, hb, hloops⟩ := h.follows
    rw [Function.after?, show f.next? op = some b from hb]
    exact ih hloops

theorem neverEnds_iff_loops : f.NeverEnds id op ↔ f.Loops op := by
  refine ⟨fun h => ?_, fun h => ⟨h.after?, h.rootWithin, ?_⟩⟩
  · obtain ⟨b, hb⟩ := Option.isSome_iff_exists.1 (h.goesOn (f.insts.length + 1))
    exact loops_of_after? hb
  · by_contra hbackward
    refine not_loops_of_backward (fun i j hi hj => not_le.1 fun hle => ?_) h
    exact hbackward ⟨i, j, hi, hj, hle⟩

variable {m : Module}

/-- What is computed from operands that are there is computed from addresses that are there. -/
theorem exists_of_reaches (hf : ∀ i ∈ f.insts, ∀ op ∈ i.kind.operands, op.Exists m f) (hop : op.Exists m f)
    (hb : ReflTransGen f.Follows op b) : b.Exists m f := by
  induction hb with
  | refl => exact hop
  | tail _ hstep _ =>
    obtain ⟨i, inst, -, hi, hmem⟩ := hstep.exists_inst
    exact hf inst (List.mem_of_getElem? hi) _ hmem

theorem endsAtObject_iff_not_loops (hf : ∀ i ∈ f.insts, ∀ op ∈ i.kind.operands, op.Exists m f) (hop : op.Exists m f) :
    f.EndsAtObject m id op ↔ ¬ f.Loops op := by
  constructor
  · rintro ⟨n, -, last, r, hlast, hend, -⟩ h
    exact h.not_ends (reaches_of_after? hlast) hend
  · intro h
    obtain ⟨n, hn, last, hlast, hend⟩ := (loops_or_ends f op).resolve_left h
    have hreach := reaches_of_after? hlast
    have hobject : ObjectOf m f id last _ := objectOf_of_last (exists_of_reaches hf hop hreach) hend
    refine ⟨n, hn, last, _, hlast, hend, hobject, ?_, fun fuel hfuel => rootWithin_of_ends hreach hend hfuel⟩
    rw [addressRoot, root?, rootWithin_of_ends hreach hend (Nat.lt_succ_self _), Option.join_some]

end Function

/-! ## 3. Loaded modules -/

/-- The operands of a loaded module are there. -/
theorem operands_of_load {source : String} {m : Module} (h : Scope.load source = .ok m) :
    ∀ f ∈ m.functions, ∀ i ∈ f.insts, ∀ op ∈ i.kind.operands, op.Exists m f := by
  obtain ⟨items, -, hitems⟩ := Scope.load_eq_ok.1 h
  exact Scope.forall_of_forall₂ (moduleDenotes_of_checkItems hitems).functions fun _ _ _ _ hf => hf.operands

/-- **Chains of addresses.** In a loaded module the chain of an operand ends at its object, unless it
comes to an address that is computed from itself; then it never ends. -/
theorem address_chain_ends_unless_loops {source : String} {m : Module} (h : Scope.load source = .ok m) {f : Function}
    (hf : f ∈ m.functions) (id : FuncId) {op : Operand} (hop : op.Exists m f) :
    (f.EndsAtObject m id op ↔ ¬ f.Loops op) ∧ (f.NeverEnds id op ↔ f.Loops op) :=
  ⟨Function.endsAtObject_iff_not_loops (operands_of_load h f hf) hop, Function.neverEnds_iff_loops⟩

/-- A view of an object, and a view of itself. -/
def mirrors : String :=
  "define void @f() \x7b\nentry:\n  %a = alloca i32\n  %b = bitcast i32* %a to i8*\n  %p = bitcast i32* %p to i32*\n  ret void\n\x7d\n"

theorem load_mirrors : ∃ m f, Scope.load mirrors = .ok m ∧ f ∈ m.functions ∧ f.insts.length = 4 ∧
    f.next? (.inst 0) = none ∧ f.next? (.inst 1) = some (.inst 0) ∧ f.next? (.inst 2) = some (.inst 2) := by
  have hchains : ((Scope.load mirrors).toOption.bind (·.functions.head?)).map
      (fun f => (List.range f.insts.length).map fun i => f.next? (.inst i)) =
        some [none, some (.inst 0), some (.inst 2), none] := by
    decide +kernel
  cases hload : Scope.load mirrors with
  | error e => simp [hload, Except.toOption] at hchains
  | ok m =>
    rw [hload, Option.map_eq_some_iff] at hchains
    obtain ⟨f, hf, hnext⟩ := hchains
    have hlength : f.insts.length = 4 := by simpa using congrArg List.length hnext
    rw [hlength] at hnext
    obtain ⟨h0, h1, h2, -⟩ : _ ∧ _ ∧ _ ∧ _ := by simpa [List.range_succ] using hnext
    exact ⟨m, f, rfl, List.mem_of_head? hf, hlength, h0, h1, h2⟩

theorem address_chain_ends_mirrors : ∃ m f, Scope.load mirrors = .ok m ∧ f ∈ m.functions ∧
    (Operand.inst 1).Exists m f ∧ f.EndsAtObject m 0 (.inst 1) ∧ f.NeverEnds 0 (.inst 2) := by
  obtain ⟨m, f, hload, hf, hlength, h0, h1, h2⟩ := load_mirrors
  have hone : (Operand.inst 1).Exists m f := by simp [Operand.Exists, hlength]
  have htwo : (Operand.inst 2).Exists m f := by simp [Operand.Exists, hlength]
  refine ⟨m, f, hload, hf, hone, ?_, ?_⟩
  · exact (address_chain_ends_unless_loops hload hf 0 hone).1.2 fun hloops => hloops.not_ends (.single h1) h0
  · exact (address_chain_ends_unless_loops hload hf 0 htwo).2.2 ⟨.inst 2, .refl, .single h2⟩

/-- The view of itself is loaded, and its chain has no end. -/
theorem mirrors_never_ends : ∃ m f i op, Scope.load mirrors = .ok m ∧ f ∈ m.functions ∧ i ∈ f.insts ∧
    op ∈ i.kind.operands ∧ ∀ last, ReflTransGen f.Follows op last → f.next? last ≠ none := by
  obtain ⟨m, f, hload, hf, -, -, -, h2⟩ := load_mirrors
  have hstep : f.Follows (.inst 2) (.inst 2) := h2
  have hloops : f.Loops (.inst 2) := ⟨.inst 2, .refl, .single hstep⟩
  obtain ⟨_, i, -, hi, hop⟩ := hstep.exists_inst
  exact ⟨m, f, i, .inst 2, hload, hf, List.mem_of_getElem? hi, hop, fun _ hlast => hloops.not_ends hlast⟩

end RangedIR
