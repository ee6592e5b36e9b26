/-
RangedIR.Proofs.Analysis.DirectMemory — functions that work on words in named cells.

In such a function every address is an alloca of a word, used only to load and to
store whole words. Its instructions add, subtract, compare, merge and widen words;
arguments may be bound to declared ranges.
-/
import RangedIR.Analysis.Engine
import RangedIR.Proofs.Analysis.Transfer
import RangedIR.Proofs.Semantics.Machine

namespace RangedIR

open Number

/-! ## 1. Functions on words -/

/-- Widths of the words: binary64 holds their sums exactly. -/
def isWordWidth (bits : Nat) : Bool := 2 ≤ bits && bits ≤ 32

theorem isWordWidth_iff {bits : Nat} : isWordWidth bits = true ↔ 2 ≤ bits ∧ bits ≤ 32 := by simp [isWordWidth]

namespace Function

/-- Whether an operand is an integer of a width; a literal has to be in its signed range. -/
def hasWidth (f : Function) (bits : Nat) : Operand → Bool
  | .inst j => (f.inst? j).any fun i => i.ty.intBits? == some bits
  | .arg k => f.params[k]?.any fun p => p.ty.intBits? == some bits
  | .const (.int v) => -2 ^ (bits - 1) ≤ v && v < 2 ^ (bits - 1)
  | _ => false

/-- The width of the cell that an operand names. -/
def cellBits? (f : Function) : Operand → Option Nat
  | .inst a =>
    match f.kind? a with
    | some (.alloca (.int bits) _) => if isWordWidth bits then some bits else none
    | _ => none
  | _ => none

/-- Whether an instruction works on words and cells only. -/
def admits (f : Function) (inst : Inst) : Bool :=
  match inst.kind with
  | .alloca (.int bits) _ => isWordWidth bits && inst.ty.isPointer
  | .load ptr _ _ => (f.cellBits? ptr).any fun bits => inst.ty.intBits? == some bits
  | .store v ty ptr _ _ =>
    inst.ty.intBits?.isNone &&
      (f.cellBits? ptr).any fun bits => ty.intBits? == some bits && f.hasWidth bits v
  | .binary op l r =>
    (op == .add || op == .sub) &&
      inst.ty.intBits?.any fun bits => isWordWidth bits && f.hasWidth bits l && f.hasWidth bits r
  | .icmp _ ty l r =>
    inst.ty.intBits? == some 1 &&
      ty.intBits?.any fun bits => isWordWidth bits && f.hasWidth bits l && f.hasWidth bits r
  | .phi incoming =>
    inst.ty.intBits?.any fun bits => isWordWidth bits && incoming.all fun e => f.hasWidth bits e.1
  | .cast .zext v src =>
    src.intBits?.any fun narrow => inst.ty.intBits?.any fun wide =>
      isWordWidth narrow && isWordWidth wide && narrow < wide && f.hasWidth narrow v
  | .call callee [(ty, .arg k)] =>
    Scope.isDebugName callee && inst.ty.intBits?.isNone && ty.isInteger &&
      f.params[k]?.any fun p => p.ty.intBits?.any isWordWidth
  | .br _ | .condBr .. | .ret none => inst.ty.intBits?.isNone
  | .ret (some (ty, v)) =>
    inst.ty.intBits?.isNone && ty.intBits?.any fun bits => bits ≤ 32 && f.hasWidth bits v
  | _ => false

/-- Whether a block ends in a branch or return and has no other. -/
def endsOnce (f : Function) (block : Block) : Bool :=
  (block.insts.dropLast.all fun i => !(f.kind? i).any (·.isTerminator)) &&
    block.insts.getLast?.any fun i => (f.kind? i).any (·.isTerminator)

/-- Whether a function works on words in named cells. -/
def isDirectMemory (f : Function) : Bool :=
  decide f.layout.Nodup &&
    f.blocks.all fun block => f.endsOnce block && block.insts.all fun i => (f.inst? i).any f.admits

/-- The ways in which an instruction works on words and cells only. -/
inductive Admitted (f : Function) (inst : Inst) : Prop
  | alloca {bits : Nat} {align : Option Nat} : inst.kind = .alloca (.int bits) align →
      inst.ty.intBits? = none → Admitted f inst
  | load {a : InstId} {bits : Nat} {ptrTy : Ty} {align : Option Nat} :
      inst.kind = .load (.inst a) ptrTy align → f.cellBits? (.inst a) = some bits →
      inst.ty = .int bits → Admitted f inst
  | store {v : Operand} {a : InstId} {bits : Nat} {ty ptrTy : Ty} {align : Option Nat} :
      inst.kind = .store v ty (.inst a) ptrTy align → inst.ty.intBits? = none →
      f.cellBits? (.inst a) = some bits → f.hasWidth bits v = true → Admitted f inst
  | arith {op : BinaryOp} {l r : Operand} {bits : Nat} : inst.kind = .binary op l r →
      op = .add ∨ op = .sub → inst.ty = .int bits → isWordWidth bits = true →
      f.hasWidth bits l = true → f.hasWidth bits r = true → Admitted f inst
  | icmp {p : IntPredicate} {l r : Operand} {bits : Nat} : inst.kind = .icmp p (.int bits) l r →
      inst.ty = .int 1 → isWordWidth bits = true → f.hasWidth bits l = true →
      f.hasWidth bits r = true → Admitted f inst
  | phi {incoming : List (Operand × BlockId)} {bits : Nat} : inst.kind = .phi incoming →
      inst.ty = .int bits → isWordWidth bits = true → (∀ e ∈ incoming, f.hasWidth bits e.1 = true) →
      Admitted f inst
  | zext {v : Operand} {narrow wide : Nat} : inst.kind = .cast .zext v (.int narrow) →
      inst.ty = .int wide → isWordWidth narrow = true → isWordWidth wide = true → narrow < wide →
      f.hasWidth narrow v = true → Admitted f inst
  | bind {callee : String} {ty : Ty} {k : Nat} {p : Param} {bits : Nat} :
      inst.kind = .call callee [(ty, .arg k)] → Scope.isDebugName callee = true →
      inst.ty.intBits? = none → ty.isPointer = false → f.params[k]? = some p →
      p.ty.intBits? = some bits → Admitted f inst
  | branch : (∃ b, inst.kind = .br b) ∨ (∃ c t e, inst.kind = .condBr c t e) ∨ inst.kind = .ret none →
      inst.ty.intBits? = none → Admitted f inst
  | ret {ty : Ty} {v : Operand} {bits : Nat} : inst.kind = .ret (some (ty, v)) →
      inst.ty.intBits? = none → bits ≤ 32 → f.hasWidth bits v = true → Admitted f inst

theorem cellBits?_eq_some {f : Function} {op : Operand} {bits : Nat} :
    f.cellBits? op = some bits ↔
      ∃ a align, op = .inst a ∧ f.kind? a = some (.alloca (.int bits) align) ∧ isWordWidth bits = true := by
  constructor
  · intro h
    unfold cellBits? at h
    split at h
    · split at h
      · rename_i a _ n align hk
        rw [Option.ite_none_right_eq_some, Option.some_inj] at h
        obtain ⟨hw, rfl⟩ := h
        exact ⟨a, align, rfl, hk, hw⟩
      · cases h
    · cases h
  · rintro ⟨a, align, rfl, hk, hw⟩
    simp [cellBits?, hk, hw]

theorem isWordWidth_of_cell {f : Function} {op : Operand} {bits : Nat} (h : f.cellBits? op = some bits) :
    isWordWidth bits = true := by
  obtain ⟨_, _, _, _, hw⟩ := cellBits?_eq_some.mp h
  exact hw

theorem intBits?_eq_some {ty : Ty} {bits : Nat} : ty.intBits? = some bits ↔ ty = .int bits := by
  cases ty <;> simp [Ty.intBits?]

theorem intBits?_of_isPointer {ty : Ty} (h : ty.isPointer = true) : ty.intBits? = none := by
  cases ty <;> simp_all [Ty.isPointer, Ty.intBits?]

theorem isPointer_of_isInteger {ty : Ty} (h : ty.isInteger = true) : ty.isPointer = false := by
  cases ty <;> simp_all [Ty.isPointer, Ty.isInteger]

theorem admitted_of_admits {f : Function} {inst : Inst} (h : f.admits inst = true) : f.Admitted inst := by
  unfold admits at h
  split at h
  case h_1 bits align hk =>
    rw [Bool.and_eq_true] at h
    exact .alloca hk (intBits?_of_isPointer h.2)
  case h_2 ptr ptrTy align hk =>
    rw [Option.any_eq_true] at h
    obtain ⟨bits, hcell, hty⟩ := h
    obtain ⟨a, _, rfl, -, -⟩ := cellBits?_eq_some.mp hcell
    exact .load hk hcell (intBits?_eq_some.mp (by simpa using hty))
  case h_3 v ty ptr ptrTy align hk =>
    rw [Bool.and_eq_true, Option.any_eq_true, Option.isNone_iff_eq_none] at h
    obtain ⟨hty, bits, hcell, hv⟩ := h
    obtain ⟨a, _, rfl, -, -⟩ := cellBits?_eq_some.mp hcell
    rw [Bool.and_eq_true] at hv
    exact .store hk hty hcell hv.2
  case h_4 op l r hk =>
    rw [Bool.and_eq_true, Option.any_eq_true, Bool.or_eq_true, beq_iff_eq, beq_iff_eq] at h
    obtain ⟨hop, bits, hty, hw⟩ := h
    rw [Bool.and_eq_true, Bool.and_eq_true] at hw
    exact .arith hk hop (intBits?_eq_some.mp hty) hw.1.1 hw.1.2 hw.2
  case h_5 p ty l r hk =>
    rw [Bool.and_eq_true, Option.any_eq_true, beq_iff_eq] at h
    obtain ⟨hty, bits, hb, hw⟩ := h
    rw [Bool.and_eq_true, Bool.and_eq_true] at hw
    rw [intBits?_eq_some] at hty hb
    subst hb
    exact .icmp hk hty hw.1.1 hw.1.2 hw.2
  case h_6 incoming hk =>
    rw [Option.any_eq_true] at h
    obtain ⟨bits, hty, hw⟩ := h
    rw [Bool.and_eq_true, List.all_eq_true] at hw
    exact .phi hk (intBits?_eq_some.mp hty) hw.1 hw.2
  case h_7 v src hk =>
    rw [Option.any_eq_true] at h
    obtain ⟨narrow, hsrc, h⟩ := h
    rw [Option.any_eq_true] at h
    obtain ⟨wide, hty, h⟩ := h
    simp only [Bool.and_eq_true, decide_eq_true_eq] at h
    rw [intBits?_eq_some] at hsrc hty
    subst hsrc
    exact .zext hk hty h.1.1.1 h.1.1.2 h.1.2 h.2
  case h_8 callee ty k hk =>
    simp only [Bool.and_eq_true, Option.isNone_iff_eq_none, Option.any_eq_true] at h
    obtain ⟨⟨⟨hname, hnone⟩, hty⟩, p, hp, bits, hbits, -⟩ := h
    exact .bind hk hname hnone (isPointer_of_isInteger hty) hp hbits
  case h_9 b hk => exact .branch (Or.inl ⟨b, hk⟩) (Option.isNone_iff_eq_none.mp h)
  case h_10 c t e hk => exact .branch (Or.inr (Or.inl ⟨c, t, e, hk⟩)) (Option.isNone_iff_eq_none.mp h)
  case h_11 hk => exact .branch (Or.inr (Or.inr hk)) (Option.isNone_iff_eq_none.mp h)
  case h_12 ty v hk =>
    simp only [Bool.and_eq_true, Option.isNone_iff_eq_none, Option.any_eq_true, decide_eq_true_eq] at h
    obtain ⟨hnone, bits, -, hb, hv⟩ := h
    exact .ret hk hnone hb hv
  case h_13 => cases h

section Class

variable {f : Function} (hf : f.isDirectMemory = true)

include hf

theorem nodup_layout : f.layout.Nodup := by
  unfold isDirectMemory at hf
  rw [Bool.and_eq_true] at hf
  exact of_decide_eq_true hf.1

theorem endsOnce_of_mem {block : Block} (h : block ∈ f.blocks) : f.endsOnce block = true := by
  unfold isDirectMemory at hf
  rw [Bool.and_eq_true, List.all_eq_true] at hf
  exact (Bool.and_eq_true _ _ ▸ hf.2 block h).1

theorem admitted_of_mem {i : InstId} (h : i ∈ f.layout) : ∃ inst, f.inst? i = some inst ∧ f.Admitted inst := by
  obtain ⟨block, hblock, hi⟩ := List.mem_flatMap.mp h
  unfold isDirectMemory at hf
  rw [Bool.and_eq_true, List.all_eq_true] at hf
  have hall := hf.2 block hblock
  rw [Bool.and_eq_true, List.all_eq_true] at hall
  have hinst := hall.2 i hi
  rw [Option.any_eq_true] at hinst
  obtain ⟨inst, hinst, hadm⟩ := hinst
  exact ⟨inst, hinst, admitted_of_admits hadm⟩

end Class

/-! ## 2. Declared ranges and the machine -/

/-- The declared ranges that an argument is bound to. -/
def bindings (f : Function) (seeds : SeedTable) (k : Nat) : List Bound :=
  f.layout.filterMap fun i => do
    let inst ← f.inst? i
    match inst.kind, inst.dbg with
    | .call _ [(_, .arg j)], some d => if j = k then seeds.find? d.ty.baseName else none
    | _, _ => none

end Function

namespace Word

/-- The contents of the cells, and what will be read from cells that were not written. -/
structure Memory where
  cells : ℤ → Option ℤ
  unwritten : ℕ → ℤ

/-- The machine of words: arithmetic is taken modulo the width, the address of an
alloca is its number, a new cell is not written, and a read of such a cell yields any
word. -/
def machine : Machine ℤ Memory where
  number? n := some (whole n)
  literal
    | .int v => v
    | .bool b => if b then 1 else 0
    | .float _ => 0
  undefined := 0
  global g := g
  compute k ty values :=
    match k, ty, values with
    | .binary .add _ _, .int bits, [a, b] => some ((a + b).bmod (2 ^ bits))
    | .binary .sub _ _, .int bits, [a, b] => some ((a - b).bmod (2 ^ bits))
    | .icmp p (.int bits) _ _, _, [a, b] => some (if compare p bits a b then 1 else 0)
    | .cast .zext _ (.int bits), _, [a] => some (a % 2 ^ bits)
    | _, _, _ => none
  act i k ty values memory :=
    match k, ty, values with
    | .alloca .., _, [] => some (i, { memory with cells := Function.update memory.cells i none })
    | .load .., .int bits, [a] =>
      match memory.cells a with
      | some v => some (v, memory)
      | none =>
        some ((memory.unwritten 0).bmod (2 ^ bits), { memory with unwritten := fun n => memory.unwritten (n + 1) })
    | .store .., _, [v, a] => some (0, { memory with cells := Function.update memory.cells a (some v) })
    | .call .., _, _ => some (0, memory)
    | _, _, _ => none

end Word

end RangedIR
