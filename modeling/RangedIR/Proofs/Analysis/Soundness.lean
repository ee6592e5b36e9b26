/-
RangedIR.Proofs.Analysis.Soundness — the analysis of functions on words in cells is sound.

An execution may go around loops any number of times, the analysis goes through the
function once. What holds along the execution: results lie in the intervals recorded for
them, the cells lie in the intervals known at the same point of the script, and inside a
loop also in those known where the loop is entered.
-/
import RangedIR.Proofs.Analysis.Loops

namespace RangedIR

open Number Word InstKind State

/-! ## 1. Operands and results -/

theorem exists_of_mapM {α β : Type} {g : α → Option β} {l : List α} {r : List β} (h : l.mapM g = some r) {x : α}
    (hx : x ∈ l) : ∃ y ∈ r, g x = some y := by
  induction l generalizing r with
  | nil => cases hx
  | cons a rest ih =>
    obtain ⟨y, hy, ys, hys, rfl⟩ := mapM_cons_eq_some.mp h
    rcases List.mem_cons.mp hx with rfl | hx
    · exact ⟨y, List.mem_cons_self, hy⟩
    · obtain ⟨z, hz, hgz⟩ := ih hys hx
      exact ⟨z, List.mem_cons_of_mem _ hz, hgz⟩

/-- The arguments are words of their types and lie in the ranges that they are bound to. -/
def Function.ArgsWithin (f : Function) (seeds : SeedTable) (args : List ℤ) : Prop :=
  ∀ (k : Nat) (v : ℤ), args[k]? = some v →
    (∀ p bits, f.params[k]? = some p → p.ty = .int bits → InRange bits v) ∧
      ∀ i ∈ f.bindings seeds k, i.Holds (whole v)

/-- A value that the result of an instruction may have: the instruction is live, and the value
lies in the recorded interval. -/
structure ResultSound (f : Function) (id : FuncId) (table : Bounds) (j : InstId) (v : ℤ) : Prop where
  listed : j ∈ f.layout
  cell : ∀ bits, f.cellBits? (.inst j) = some bits → v = j
  range : ∀ inst bits, f.inst? j = some inst → inst.ty = .int bits → isWordWidth bits = true → InRange bits v
  holds : ∀ inst bits i, f.inst? j = some inst → inst.ty = .int bits → table.get? (.inst id j) = some i →
    i.Holds (whole v)

/-- The results so far are ones that their instructions may have. -/
def EnvSound (f : Function) (id : FuncId) (table : Bounds) (env : InstId → Option ℤ) : Prop :=
  ∀ j v, env j = some v → ResultSound f id table j v

variable {f : Function} {id : FuncId} {seeds : SeedTable} {table : Bounds} {args : List ℤ}

/-- An instruction with an integer result is no cell, if it is live. -/
theorem Function.not_cell_of_int (hf : f.isDirectMemory = true) {j : InstId} (hj : j ∈ f.layout) {inst : Inst}
    (hinst : f.inst? j = some inst) {n : Nat} (hty : inst.ty = .int n) (bits : Nat) :
    f.cellBits? (.inst j) ≠ some bits := by
  intro hcell
  obtain ⟨a, align, ha, hk, -⟩ := cellBits?_eq_some.mp hcell
  cases ha
  obtain ⟨inst', hinst', hadm⟩ := f.admitted_of_mem hf hj
  obtain rfl : inst = inst' := Option.some.inj (hinst.symm.trans hinst')
  rw [kind?, hinst, Option.map_some, Option.some_inj] at hk
  cases hadm with
  | alloca _ hnone =>
    rw [hty] at hnone
    cases hnone
  | branch hk' _ => simp [hk] at hk'
  | _ hk' => simp [hk] at hk'

namespace State

variable {s t : State} {ctx : Context} {descend : Descent} {l r : List Action}

/-- The value of an operand is a word and lies in what is known about it at any point. -/
theorem operand_sound (hf : f.isDirectMemory = true) (hs : Begins f id seeds s) (hscript : f.script = l ++ r)
    {env : InstId → Option ℤ}
    (henv : EnvSound f id (performAll ctx descend f.script s).bounds env) (hargs : f.ArgsWithin seeds args)
    {op : Operand} {bits : Nat} (hbits : bits ≤ 32) (hop : f.hasWidth bits op = true) {v : ℤ}
    (hv : machine.eval args env op = some v) :
    (isWordWidth bits = true → InRange bits v) ∧
      ∀ i, (performAll ctx descend l s).operand? op = some i → i.Holds (whole v) := by
  have ht : Tidy f id seeds (performAll ctx descend l s) := tidy_at hf hs hscript
  cases op with
  | inst j =>
    rw [Function.hasWidth, Option.any_eq_true] at hop
    obtain ⟨inst, hinst, hty⟩ := hop
    rw [beq_iff_eq, Function.intBits?_eq_some] at hty
    refine ⟨fun hw => (henv j v hv).range inst bits hinst hty hw, ?_⟩
    intro i hi
    rw [ht.operand?_inst] at hi
    refine (henv j v hv).holds inst bits i hinst hty (get?_script_of_beginning hf hs hscript ?_ hi)
    exact f.not_cell_of_int hf (henv j v hv).listed hinst hty
  | arg k =>
    rw [Function.hasWidth, Option.any_eq_true] at hop
    obtain ⟨p, hp, hty⟩ := hop
    rw [beq_iff_eq, Function.intBits?_eq_some] at hty
    refine ⟨fun _ => (hargs k v hv).1 p bits hp hty, ?_⟩
    intro i hi
    rw [ht.operand?_arg] at hi
    exact (hargs k v hv).2 i (ht.args k i hi)
  | const c =>
    cases c with
    | int n =>
      obtain rfl : n = v := Option.some.inj hv
      rw [Function.hasWidth, Bool.and_eq_true, decide_eq_true_iff, decide_eq_true_iff] at hop
      refine ⟨fun _ => hop, ?_⟩
      intro i hi
      obtain rfl : Interval.singleton (ofInt n) = i := Option.some.inj hi
      have hmag : |n| ≤ 2 ^ 51 := InRange.magnitude (by omega) hop
      exact (Interval.holds_singleton (denotes_ofInt (hmag.trans (by norm_num)))).mpr rfl
    | float _ => cases hop
    | bool _ => cases hop
  | global _ => cases hop
  | undef => cases hop

/-- Looking at an instruction in a state wraps an interval to a single word although its
ends are a full turn apart. -/
def slipsAt (s : State) (i : InstId) : Bool :=
  (s.frame.function.inst? i).any fun inst =>
    match inst.kind, inst.ty with
    | .binary op l r, .int bits => (Transfer.unwrapped? op (.int bits) s.operand? l r).any (Transfer.slips · bits)
    | _, _ => false

/-- No instruction of a script slips, from a state on. -/
def neverSlips (ctx : Context) (descend : Descent) : List Action → State → Bool
  | [], _ => true
  | a :: rest, s => !(a.inst?.any s.slipsAt) && neverSlips ctx descend rest (s.perform ctx descend a)

theorem slipsAt_of_neverSlips {i : InstId} :
    ∀ (l r : List Action) (s : State), neverSlips ctx descend (l ++ .visit i :: r) s = true →
      (performAll ctx descend l s).slipsAt i = false
  | [], _, s, h => by
    rw [List.nil_append, neverSlips, Bool.and_eq_true] at h
    simpa [Action.inst?] using h.1
  | a :: l, r, s, h => by
    rw [List.cons_append, neverSlips, Bool.and_eq_true] at h
    exact slipsAt_of_neverSlips l r _ h.2

section Results

variable {env : InstId → Option ℤ} {i : InstId} {inst : Inst}
  (hf : f.isDirectMemory = true) (hs : Begins f id seeds s) (hscript : f.script = l ++ .visit i :: r)
  (henv : EnvSound f id (performAll ctx descend f.script s).bounds env) (hargs : f.ArgsWithin seeds args)
  (hi : f.inst? i = some inst)

include hf hs hscript hi

variable {bits : Nat} {x y : Operand} {u v : ℤ}

/-- An integer result is sound if it is a word and lies in what its instruction finds
out where it stands. -/
theorem resultSound_of_result (hty : inst.ty = .int bits)
    (hown : recordsElsewhere inst.kind = false) {v : ℤ} (hrange : isWordWidth bits = true → InRange bits v)
    (hholds : ∀ j, (performAll ctx descend l s).result? inst = some j → j.Holds (whole v)) :
    ResultSound f id (performAll ctx descend f.script s).bounds i v := by
  have hmem : i ∈ f.layout := mem_layout_at hscript
  have hcell := f.not_cell_of_int hf hmem hi hty
  refine ⟨hmem, fun bits h => absurd h (hcell bits), ?_, ?_⟩
  · intro inst' bits' hi' hty' hw
    obtain rfl : inst = inst' := Option.some.inj (hi.symm.trans hi')
    rw [hty] at hty'
    cases hty'
    exact hrange hw
  · intro inst' bits' j hi' _ hj
    rw [get?_script_result hf hs hscript hi hown hcell] at hj
    exact hholds j hj

include henv hargs

theorem resultSound_arith {op : BinaryOp} (hk : inst.kind = .binary op x y)
    (hop : op = .add ∨ op = .sub) (hty : inst.ty = .int bits) (hw : isWordWidth bits = true)
    (hx : f.hasWidth bits x = true) (hy : f.hasWidth bits y = true)
    (hslips : (performAll ctx descend l s).slipsAt i = false)
    (hu : machine.eval args env x = some u) (hv : machine.eval args env y = some v) :
    ResultSound f id (performAll ctx descend f.script s).bounds i ((Transfer.sum op u v).bmod (2 ^ bits)) := by
  have hbits := isWordWidth_iff.mp hw
  obtain ⟨hu1, hu2⟩ := operand_sound hf hs hscript henv hargs hbits.2 hx hu
  obtain ⟨hv1, hv2⟩ := operand_sound hf hs hscript henv hargs hbits.2 hy hv
  have ht : Tidy f id seeds (performAll ctx descend l s) := tidy_at hf hs hscript
  refine resultSound_of_result hf hs hscript hi hty (by rw [hk]; rfl) (fun _ => inRange_bmod (by omega) _) ?_
  intro j hj
  simp only [result?, hk, hty] at hj
  simp only [slipsAt, ht.function, hi, Option.any_some, hk, hty] at hslips
  exact Transfer.holds_binary hop hbits.1 (by omega) (hu1 hw) (hv1 hw) hu2 hv2 hslips hj

theorem resultSound_icmp {p : IntPredicate} (hk : inst.kind = .icmp p (.int bits) x y)
    (hty : inst.ty = .int 1) (hw : isWordWidth bits = true) (hx : f.hasWidth bits x = true)
    (hy : f.hasWidth bits y = true) (hu : machine.eval args env x = some u)
    (hv : machine.eval args env y = some v) :
    ResultSound f id (performAll ctx descend f.script s).bounds i (if Word.compare p bits u v then 1 else 0) := by
  have hbits := isWordWidth_iff.mp hw
  obtain ⟨hu1, hu2⟩ := operand_sound hf hs hscript henv hargs hbits.2 hx hu
  obtain ⟨hv1, hv2⟩ := operand_sound hf hs hscript henv hargs hbits.2 hy hv
  refine resultSound_of_result hf hs hscript hi hty (by rw [hk]; rfl) (fun h => by cases h) ?_
  intro j hj
  simp only [result?, hk, Option.bind_eq_bind, Option.bind_eq_some_iff] at hj
  obtain ⟨a, ha, b, hb, hj⟩ := hj
  cases hj
  exact p.holds_decide (hu1 hw) (hv1 hw) (hu2 a ha) (hv2 b hb)

theorem resultSound_zext {x : Operand} {narrow wide : Nat} (hk : inst.kind = .cast .zext x (.int narrow))
    (hty : inst.ty = .int wide) (hw : isWordWidth narrow = true) (hlt : narrow < wide)
    (hx : f.hasWidth narrow x = true) {u : ℤ} (hu : machine.eval args env x = some u) :
    ResultSound f id (performAll ctx descend f.script s).bounds i (u % 2 ^ narrow) := by
  have hbits := isWordWidth_iff.mp hw
  obtain ⟨hu1, hu2⟩ := operand_sound hf hs hscript henv hargs hbits.2 hx hu
  refine resultSound_of_result hf hs hscript hi hty (by rw [hk]; rfl) (fun _ => inRange_emod hlt u) ?_
  intro j hj
  simp only [result?, hk, Option.bind_eq_some_iff] at hj
  obtain ⟨a, ha, hj⟩ := hj
  cases hj
  exact Transfer.holds_asUnsigned (by omega) (by omega) (hu2 a ha) (hu1 hw).1 (hu1 hw).2

/-- The value of a phi comes from one of its operands. -/
theorem resultSound_phi {incoming : List (Operand × BlockId)} (hk : inst.kind = .phi incoming)
    (hty : inst.ty = .int bits) (hw : isWordWidth bits = true)
    (hincoming : ∀ e ∈ incoming, f.hasWidth bits e.1 = true) {prev : Option BlockId} {v : ℤ}
    (hv : machine.phiValue? args env prev incoming = some v) :
    ResultSound f id (performAll ctx descend f.script s).bounds i v := by
  have hbits := isWordWidth_iff.mp hw
  obtain ⟨e, he, hv⟩ := Option.bind_eq_some_iff.mp hv
  have hmem : e ∈ incoming := List.mem_of_find?_eq_some he
  obtain ⟨h1, h2⟩ := operand_sound hf hs hscript henv hargs hbits.2 (hincoming e hmem) hv
  refine resultSound_of_result hf hs hscript hi hty (by rw [hk]; rfl) h1 ?_
  intro j hj
  simp only [result?, hk, phi] at hj
  obtain ⟨known, hknown, hj⟩ := Option.bind_eq_some_iff.mp hj
  obtain ⟨k, hk, hop⟩ := exists_of_mapM hknown hmem
  exact Interval.holds_hullOf hk (h2 k hop) hj

end Results

end State

/-! ## 2. Cells -/

/-- Every cell about which something is known is allocated and written, and lies in
what is known. -/
def CellsSound (f : Function) (id : FuncId) (bounds : Bounds) (env : InstId → Option ℤ) (w : Memory) : Prop :=
  ∀ a bits i, f.cellBits? (.inst a) = some bits → bounds.get? (.inst id a) = some i →
    ∃ v, env a = some (a : ℤ) ∧ w.cells a = some v ∧ i.Holds (whole v)

/-- Nothing is known about a cell where its alloca stands, nor where a loop around it is
entered. -/
structure Unwritten (ctx : Context) (descend : Descent) (f : Function) (id : FuncId) (s : State) (a : InstId)
    (b : BlockId) (done : List InstId) : Prop where
  here : (performAll ctx descend (f.before b done) s).bounds.get? (.inst id a) = none
  loops : ∀ h < f.blocks.length, f.latches h ≠ [] → b ∈ f.loop h →
    (performAll ctx descend (f.before h []) s).bounds.get? (.inst id a) = none

/-! ## 3. Executions -/

/-- What holds at every point of an execution, given the state in which the analysis
begins. -/
structure Along (ctx : Context) (descend : Descent) (f : Function) (id : FuncId) (s : State)
    (c : Machine.Config ℤ Memory) : Prop where
  env : EnvSound f id (performAll ctx descend f.script s).bounds c.env
  words : ∀ a bits u v, f.cellBits? (.inst a) = some bits → c.env a = some u → c.world.cells a = some v →
    InRange bits v
  here : ∃ block done, f.blocks[c.block]? = some block ∧ block.insts = done ++ c.rest ∧
    CellsSound f id (performAll ctx descend (f.before c.block done) s).bounds c.env c.world
  loops : ∀ h < f.blocks.length, f.latches h ≠ [] → c.block ∈ f.loop h →
    CellsSound f id (performAll ctx descend (f.before h []) s).bounds c.env c.world
  allocated : ∀ a bits v, f.cellBits? (.inst a) = some bits → c.env a = some v →
    ∀ b block done rest, f.blocks[b]? = some block → block.insts = done ++ a :: rest →
      Unwritten ctx descend f id s a b done

/-- A cell that an instruction changes in block `b`: it holds words, which lie in what is
known in `t`, and nothing is known about it where a loop around the block is entered. -/
structure Renewed (ctx : Context) (descend : Descent) (f : Function) (id : FuncId) (s t : State) (b : BlockId)
    (a : InstId) (bits : Nat) (env : InstId → Option ℤ) (w : Memory) : Prop where
  word : ∀ v, w.cells a = some v → InRange bits v
  here : ∀ i, t.bounds.get? (.inst id a) = some i → ∃ v, env a = some (a : ℤ) ∧ w.cells a = some v ∧ i.Holds (whole v)
  loops : ∀ h < f.blocks.length, f.latches h ≠ [] → b ∈ f.loop h →
    (performAll ctx descend (f.before h []) s).bounds.get? (.inst id a) = none
  allocated : ∀ b block done rest, f.blocks[b]? = some block → block.insts = done ++ a :: rest →
    Unwritten ctx descend f id s a b done

namespace Along

variable {s : State} {ctx : Context} {descend : Descent} {c : Machine.Config ℤ Memory} {i : InstId}
  {rest done : List InstId} {block : Block} {inst : Inst}

variable {b : BlockId} {env : InstId → Option ℤ} {prev : Option BlockId} {insts : List InstId}
variable {k : InstKind}

/-- The script goes on with the instruction at a point. -/
theorem script_at (hblock : f.blocks[b]? = some block) (hsplit : block.insts = done ++ i :: rest) :
    ∃ r, f.script = f.before b done ++ .visit i :: r := by
  obtain ⟨tail, htail⟩ := f.script_eq_before hblock hsplit
  exact ⟨rest.map .visit ++ tail, by simpa using htail⟩

/-- The place of the instruction that comes next. -/
theorem next (h : Along ctx descend f id s c) (hrest : c.rest = i :: rest) : ∃ block done r,
    f.blocks[c.block]? = some block ∧ block.insts = done ++ i :: rest ∧ f.script = f.before c.block done ++ .visit i :: r ∧
      i ∈ f.layout ∧ CellsSound f id (performAll ctx descend (f.before c.block done) s).bounds c.env c.world := by
  obtain ⟨block, done, hblock, hsplit, hsound⟩ := h.here
  rw [hrest] at hsplit
  obtain ⟨r, hscript⟩ := script_at hblock hsplit
  exact ⟨block, done, r, hblock, hsplit, hscript, mem_layout_at hscript, hsound⟩

theorem performAll_snoc :
    performAll ctx descend (f.before c.block (done ++ [i])) s =
      (performAll ctx descend (f.before c.block done) s).perform ctx descend (.visit i) := by
  have h : f.before c.block (done ++ [i]) = f.before c.block done ++ [.visit i] := by simp [Function.before]
  rw [h, performAll_append]
  rfl

/-- An instruction other than an alloca is no cell. -/
theorem not_cell_of_kind (hi : f.inst? i = some inst) (hk : ∀ ty align, inst.kind ≠ .alloca ty align) (bits : Nat) :
    f.cellBits? (.inst i) ≠ some bits := by
  intro h
  obtain ⟨a, align, ha, hkind, -⟩ := Function.cellBits?_eq_some.mp h
  cases ha
  rw [Function.kind?, hi, Option.map_some, Option.some_inj] at hkind
  exact hk _ _ hkind

/-- A result that is no integer is sound whatever it is, unless it is the address of a cell. -/
theorem resultSound_of_void (hmem : i ∈ f.layout) (hi : f.inst? i = some inst)
    (hty : inst.ty.intBits? = none) {v : ℤ} (hcell : ∀ bits, f.cellBits? (.inst i) = some bits → v = i) :
    ResultSound f id table i v := by
  have hint : ∀ inst' bits, f.inst? i = some inst' → inst'.ty ≠ .int bits := by
    rintro inst' bits hi' hty'
    obtain rfl : inst = inst' := Option.some.inj (hi.symm.trans hi')
    rw [hty'] at hty
    cases hty
  exact ⟨hmem, hcell, fun inst' bits hi' hty' => absurd hty' (hint inst' bits hi'),
    fun inst' bits _ hi' hty' => absurd hty' (hint inst' bits hi')⟩

theorem update_sound (henv : EnvSound f id table env) {v : ℤ} (hv : ResultSound f id table i v) :
    EnvSound f id table (Function.update env i (some v)) := by
  intro j u hu
  by_cases hij : j = i
  · subst hij
    rw [Function.update_self] at hu
    cases hu
    exact hv
  · rw [Function.update_of_ne hij] at hu
    exact henv j u hu

theorem update_cell {v : Option ℤ} (hcell : ∀ bits, f.cellBits? (.inst i) ≠ some bits) :
    ∀ a bits, f.cellBits? (.inst a) = some bits → Function.update env i v a = env a := by
  intro a bits ha
  have hne : a ≠ i := by
    rintro rfl
    exact hcell bits ha
  exact Function.update_of_ne hne _ _

/-- A cell is no phi. -/
theorem not_isPhi_of_cell {a : InstId} {bits : Nat} (ha : f.cellBits? (.inst a) = some bits) : ¬ f.IsPhi a := by
  rintro ⟨incoming, hphi⟩
  obtain ⟨_, _, heq, hk, -⟩ := Function.cellBits?_eq_some.mp ha
  cases heq
  rw [hk] at hphi
  cases hphi

theorem enters_cell {env env' : InstId → Option ℤ} (henters : machine.Enters f args prev env b insts env') :
    ∀ a bits, f.cellBits? (.inst a) = some bits → env' a = env a :=
  fun a _ ha => henters.others a fun _ => not_isPhi_of_cell ha

theorem target?_mem (h : machine.target? args env k = some b) : k.isTerminator = true ∧ b ∈ k.successors := by
  cases k with
  | br t =>
    obtain rfl : t = b := Option.some.inj h
    exact ⟨rfl, List.mem_singleton_self _⟩
  | condBr cond t e =>
    obtain ⟨v, -, hb⟩ := Option.map_eq_some_iff.mp h
    refine ⟨rfl, ?_⟩
    rw [← hb]
    split_ifs <;> simp [successors]
  | _ => cases h

variable (hf : f.isDirectMemory = true) (hs : State.Begins f id seeds s) (hargs : f.ArgsWithin seeds args)

include hf hs

/-- At the start nothing is known about any cell, and no loop around the first block is
entered elsewhere. -/
theorem start {world : Memory}
    (hstart : machine.Starts f args world c) : Along ctx descend f id s c := by
  obtain @⟨insts, env, henters⟩ := hstart
  obtain ⟨block, hblock, rfl⟩ := Option.map_eq_some_iff.mp henters.block
  have h0 : 0 < f.blocks.length := (List.getElem?_eq_some_iff.mp hblock).1
  have hnone : ∀ j, env j = none := by
    intro j
    by_cases hphi : j ∈ block.insts ∧ f.IsPhi j
    · obtain ⟨hj, incoming, hphi⟩ := hphi
      obtain ⟨v, hv, -⟩ := henters.phis j hj incoming hphi
      rw [Machine.phiValue?_start] at hv
      cases hv
    · exact henters.others j fun hj hp => hphi ⟨hj, hp⟩
  have habsurd : ∀ {j : InstId} {v : ℤ} {P : Prop}, env j = some v → P := by
    intro j v P h
    rw [hnone j] at h
    cases h
  refine ⟨fun _ _ => habsurd, fun _ _ _ _ _ h => habsurd h, ⟨block, [], hblock, rfl, ?_⟩, ?_, fun _ _ _ _ h => habsurd h⟩
  · intro a bits j ha hj
    rw [get?_entry_first hs ha] at hj
    cases hj
  · intro n hn hlatches hloop a bits j ha hj
    exfalso
    by_cases hn0 : n = 0
    · subst hn0
      rw [get?_entry_first hs ha] at hj
      cases hj
    · have hkeeps := loopKeeps_of_entry hf hs hn ha hj hlatches
      have hreach : f.Reached (some n) 0 := .entry h0 (by simpa using Ne.symm hn0)
      obtain ⟨p, hp, hpr⟩ := Function.latch_of_reached hloop (Ne.symm hn0) hreach
      exact hkeeps.latches p hp hpr

include hargs in
/-- The results after going into a block are those before it and the values of its phis. -/
theorem enters_sound {env' : InstId → Option ℤ} (henv : EnvSound f id (performAll ctx descend f.script s).bounds env)
    (henters : machine.Enters f args prev env b insts env') :
    EnvSound f id (performAll ctx descend f.script s).bounds env' := by
  intro j v hv
  by_cases hphi : j ∈ insts ∧ f.IsPhi j
  · obtain ⟨hj, incoming, hphi⟩ := hphi
    obtain ⟨u, hu, hju⟩ := henters.phis j hj incoming hphi
    rw [hv] at hju
    cases hju
    obtain ⟨block, hblock, rfl⟩ := Option.map_eq_some_iff.mp henters.block
    obtain ⟨done, rest, hsplit⟩ := List.append_of_mem hj
    obtain ⟨r, hscript⟩ := script_at hblock hsplit
    have hmem : j ∈ f.layout := mem_layout_at hscript
    obtain ⟨inst, hinst, hadm⟩ := f.admitted_of_mem hf hmem
    rw [Function.kind?, hinst, Option.map_some, Option.some_inj] at hphi
    cases hadm with
    | phi hk hty hw hincoming =>
      rw [hphi] at hk
      cases hk
      exact resultSound_phi hf hs hscript henv hargs hinst hphi hty hw hincoming hu
    | branch hk _ => simp [hphi] at hk
    | _ hk => simp [hphi] at hk
  · rw [henters.others j fun hj hp => hphi ⟨hj, hp⟩] at hv
    exact henv j v hv

omit hs in
/-- A branch stands at the end of its block and leads to a successor. -/
theorem branch_last (hblock : f.blocks[b]? = some block)
    (hsplit : block.insts = done ++ i :: rest) (hk : f.kind? i = some k)
    (hterm : k.isTerminator = true) : rest = [] ∧ f.successors b = k.successors := by
  have hends := f.endsOnce_of_mem hf (List.mem_of_getElem? hblock)
  unfold Function.endsOnce at hends
  rw [Bool.and_eq_true, List.all_eq_true] at hends
  have hrest : rest = [] := by
    by_contra hne
    have hmem : i ∈ block.insts.dropLast := by
      rw [hsplit, List.dropLast_append_cons, List.dropLast_cons_of_ne_nil hne]
      simp
    have hnot := hends.1 i hmem
    simp [hk, hterm] at hnot
  subst hrest
  refine ⟨rfl, ?_⟩
  have hlast : block.insts.getLast? = some i := by simp [hsplit]
  simp [Function.successors, Function.terminator?, hblock, hlast, hk, hterm]

section Steps

variable (h : Along ctx descend f id s c) (hrest : c.rest = i :: rest) (hi : f.inst? i = some inst)

include h hrest hi

variable {trace : List (Event ℤ)} {v : ℤ} {align : Option Nat} {env' : InstId → Option ℤ} {w : Memory}
variable {a : InstId} {bits : Nat}

omit hf hs hrest hi in
/-- One instruction further: every cell is kept or renewed. -/
theorem moved (hblock : f.blocks[c.block]? = some block) (hsplit : block.insts = done ++ i :: rest)
    (hsound : CellsSound f id (performAll ctx descend (f.before c.block done) s).bounds c.env c.world)
    (henv' : EnvSound f id (performAll ctx descend f.script s).bounds env')
    (hcells : let t := performAll ctx descend (f.before c.block done) s
      ∀ a bits, f.cellBits? (.inst a) = some bits →
        (env' a = c.env a ∧ w.cells a = c.world.cells a ∧
          (t.perform ctx descend (.visit i)).bounds.get? (.inst id a) = t.bounds.get? (.inst id a)) ∨
        Renewed ctx descend f id s (t.perform ctx descend (.visit i)) c.block a bits env' w) :
    Along ctx descend f id s ⟨c.block, rest, env', w, trace⟩ := by
  refine ⟨henv', ?_, ⟨block, done ++ [i], hblock, by simp [hsplit], ?_⟩, ?_, ?_⟩
  · intro a bits u v ha hu hv
    rcases hcells a bits ha with ⟨henv, hcell, -⟩ | hrenewed
    · exact h.words a bits u v ha (henv ▸ hu) (hcell ▸ hv)
    · exact hrenewed.word v hv
  · rw [performAll_snoc]
    intro a bits j ha hj
    rcases hcells a bits ha with ⟨henv, hcell, hget⟩ | hrenewed
    · dsimp only
      rw [henv, hcell]
      exact hsound a bits j ha (hget ▸ hj)
    · exact hrenewed.here j hj
  · intro n hn hlatches hloop a bits j ha hj
    rcases hcells a bits ha with ⟨henv, hcell, -⟩ | hrenewed
    · dsimp only
      rw [henv, hcell]
      exact h.loops n hn hlatches hloop a bits j ha hj
    · cases (hrenewed.loops n hn hlatches hloop).symm.trans hj
  · intro a bits v ha hv
    rcases hcells a bits ha with ⟨henv, -, -⟩ | hrenewed
    · exact h.allocated a bits v ha (henv ▸ hv)
    · exact hrenewed.allocated

/-- An instruction that touches no cell. -/
theorem advance
    (htouched : ∀ a bits, f.cellBits? (.inst a) = some bits → touched id i inst.kind ≠ .inst id a)
    (henv' : EnvSound f id (performAll ctx descend f.script s).bounds env')
    (henv : ∀ a bits, f.cellBits? (.inst a) = some bits → env' a = c.env a)
    (hcells : w.cells = c.world.cells) :
    Along ctx descend f id s ⟨c.block, rest, env', w, trace⟩ := by
  obtain ⟨block, done, r, hblock, hsplit, hscript, -, hsound⟩ := h.next hrest
  have hvis := visited_at hf hs hscript hi ctx descend
  refine h.moved hblock hsplit hsound henv' fun a bits ha => .inl ⟨henv a bits ha, by rw [hcells], ?_⟩
  exact hvis.others _ (htouched a bits ha).symm

/-- An instruction that has a result of its own. -/
theorem advance_result (hrecords : recordsElsewhere inst.kind = false)
    (hne : ∀ ty align, inst.kind ≠ .alloca ty align)
    (hv : ResultSound f id (performAll ctx descend f.script s).bounds i v)
    (hcells : w.cells = c.world.cells) :
    Along ctx descend f id s ⟨c.block, rest, Function.update c.env i (some v), w, trace⟩ := by
  refine h.advance hf hs hrest hi ?_ (update_sound h.env hv) (update_cell (not_cell_of_kind hi hne)) hcells
  intro a bits ha heq
  rw [touched_own hrecords] at heq
  cases heq
  exact not_cell_of_kind hi hne bits ha

include hargs in
/-- A store to a cell. -/
theorem store {x : Operand} {ty ptrTy : Ty}
    (hk : inst.kind = .store x ty (.inst a) ptrTy align) (hty : inst.ty.intBits? = none)
    (ha : f.cellBits? (.inst a) = some bits) (hx : f.hasWidth bits x = true)
    (hv : machine.eval args c.env x = some v) (hptr : c.env a = some (a : ℤ)) :
    Along ctx descend f id s ⟨c.block, rest, Function.update c.env i (some 0),
      { c.world with cells := Function.update c.world.cells a (some v) }, trace⟩ := by
  obtain ⟨block, done, r, hblock, hsplit, hscript, hmem, hsound⟩ := h.next hrest
  have hvis := visited_at hf hs hscript hi ctx descend
  have hword := Function.isWordWidth_of_cell ha
  obtain ⟨hrange, hholds⟩ := operand_sound hf hs hscript h.env hargs (isWordWidth_iff.mp hword).2 hx hv
  have hcell := not_cell_of_kind hi (by simp [hk])
  have htouched : touched id i inst.kind = .inst id a := by simp only [touched, hk]
  have hafter := hvis.touched
  rw [htouched] at hafter
  simp only [after, hk] at hafter
  refine h.moved hblock hsplit hsound
    (update_sound h.env (resultSound_of_void hmem hi hty fun bits hb => absurd hb (hcell bits))) fun a' bits' ha' => ?_
  by_cases haa : a' = a
  · subst haa
    obtain rfl : bits = bits' := Option.some.inj (ha.symm.trans ha')
    refine .inr ⟨?_, ?_, ?_, h.allocated a' bits a' ha hptr⟩
    · intro u hu
      cases (Function.update_self _ _ _).symm.trans hu
      exact hrange hword
    · intro j hj
      rw [hafter] at hj
      exact ⟨v, (update_cell hcell a' bits ha).trans hptr, Function.update_self _ _ _, hholds j hj⟩
    · -- A loop that knows something would write a cell that it keeps.
      intro n hn hlatches hloop
      refine Option.eq_none_iff_forall_ne_some.mpr fun j hj => ?_
      refine (loopKeeps_of_entry hf hs hn ha hj hlatches).stores c.block hloop block hblock i ?_ x ty ptrTy align ?_
      · simp [hsplit]
      · rw [Function.kind?, hi, Option.map_some, hk]
  · refine .inl ⟨update_cell hcell a' bits' ha', Function.update_of_ne (by exact_mod_cast haa) _ _, ?_⟩
    exact hvis.others _ (by rw [htouched]; simpa using haa)

/-- An alloca. -/
theorem alloca
    {ty : Ty} (hk : inst.kind = .alloca ty align) (hty : inst.ty.intBits? = none) :
    Along ctx descend f id s ⟨c.block, rest, Function.update c.env i (some (i : ℤ)),
      { c.world with cells := Function.update c.world.cells i none }, trace⟩ := by
  obtain ⟨block, done, r, hblock, hsplit, hscript, hmem, hsound⟩ := h.next hrest
  have hvis := visited_at hf hs hscript hi ctx descend
  -- At the first time the cell is not allocated, so nothing is known about it; and what
  -- is known there does not depend on the execution.
  have hunwritten : ∀ bits, f.cellBits? (.inst i) = some bits → Unwritten ctx descend f id s i c.block done := by
    intro bits hbits
    cases henv : c.env i with
    | some v => exact h.allocated i bits v hbits henv c.block block done rest hblock hsplit
    | none =>
      have hunknown : ∀ {known : Bounds}, CellsSound f id known c.env c.world → known.get? (.inst id i) = none := by
        intro known hknown
        refine Option.eq_none_iff_forall_ne_some.mpr fun j hj => ?_
        obtain ⟨_, hsome, -⟩ := hknown i bits j hbits hj
        cases henv.symm.trans hsome
      exact ⟨hunknown hsound, fun n hn hlatches hloop => hunknown (h.loops n hn hlatches hloop)⟩
  have htouched : touched id i inst.kind = .inst id i := by simp only [touched, hk]
  have hafter := hvis.touched
  rw [htouched] at hafter
  refine h.moved hblock hsplit hsound
    (update_sound h.env (resultSound_of_void hmem hi hty fun _ _ => rfl)) fun a bits ha => ?_
  by_cases hai : a = i
  · subst hai
    refine .inr ⟨?_, ?_, (hunwritten bits ha).loops, ?_⟩
    · intro u hu
      cases (Function.update_self _ _ _).symm.trans hu
    · intro j hj
      rw [hafter] at hj
      simp [after, State.result?, hk, touched, spend, (hunwritten bits ha).here] at hj
    · intro b block' done' rest' hblock' hsplit'
      obtain ⟨rfl, rfl⟩ := f.place_unique (f.nodup_layout hf) hblock hsplit hblock' hsplit'
      exact hunwritten bits ha
  · refine .inl ⟨Function.update_of_ne hai _ _, Function.update_of_ne (by exact_mod_cast hai) _ _, ?_⟩
    exact hvis.others _ (by rw [htouched]; simpa using hai)

omit hrest in
/-- A load yields what was written, or any word. -/
theorem resultSound_load (hblock : f.blocks[c.block]? = some block)
    (hsplit : block.insts = done ++ i :: rest)
    (hsound : CellsSound f id (performAll ctx descend (f.before c.block done) s).bounds c.env c.world) {ptrTy : Ty}
    (hk : inst.kind = .load (.inst a) ptrTy align) (ha : f.cellBits? (.inst a) = some bits)
    (hty : inst.ty = .int bits) (hptr : c.env a = some (a : ℤ))
    (hv : c.world.cells a = some v ∨ c.world.cells a = none ∧ InRange bits v) :
    ResultSound f id (performAll ctx descend f.script s).bounds i v := by
  obtain ⟨r, hscript⟩ := script_at hblock hsplit
  have ht : Tidy f id seeds (performAll ctx descend (f.before c.block done) s) :=
    tidy_at hf hs hscript
  refine resultSound_of_result hf hs hscript hi hty (by rw [hk]; rfl) ?_ ?_
  · intro _
    exact hv.elim (h.words a bits a v ha hptr) And.right
  · intro j hj
    simp only [State.result?, hk, ht.operand?_inst] at hj
    obtain ⟨u, -, hu, hholds⟩ := hsound a bits j ha hj
    rcases hv with hv | ⟨hnone, -⟩
    · rw [hu] at hv
      cases hv
      exact hholds
    · rw [hu] at hnone
      cases hnone

attribute [local simp] Machine.perform actsOnWorld shape mapOperands machine

include hargs in
/-- An instruction that stands for itself. -/
theorem plain
    (hslips : neverSlips ctx descend f.script s = true)
    (hplain : inst.kind.isPlain = true) {values : List ℤ}
    (hvalues : inst.kind.operands.mapM (machine.eval args c.env) = some values)
    (hperform : machine.perform i inst values c.world = some (v, w)) :
    Along ctx descend f id s ⟨c.block, rest, Function.update c.env i (some v), w, trace⟩ := by
  obtain ⟨block, done, r, hblock, hsplit, hscript, hmem, hsound⟩ := h.next hrest
  obtain ⟨inst', hi', hadm⟩ := f.admitted_of_mem hf hmem
  obtain rfl : inst = inst' := Option.some.inj (hi.symm.trans hi')
  cases hadm with
  | alloca hk hty =>
    simp only [hk, operands, List.mapM_nil, Option.pure_def, Option.some.injEq] at hvalues
    subst hvalues
    simp [hk] at hperform
    obtain ⟨rfl, rfl⟩ := hperform
    exact h.alloca hf hs hrest hi hk hty
  | @load a bits ptrTy align hk ha hty =>
    simp only [hk, operands] at hvalues
    obtain ⟨u, rfl, hu⟩ := mapM_one hvalues
    obtain rfl := (h.env a u hu).cell bits ha
    simp only [Machine.perform, hk, actsOnWorld, shape, mapOperands, machine, if_true, hty] at hperform
    have hbits := isWordWidth_iff.mp (Function.isWordWidth_of_cell ha)
    have hread : (c.world.cells a = some v ∨ c.world.cells a = none ∧ InRange bits v) ∧
        w.cells = c.world.cells := by
      cases hcells : c.world.cells (a : ℤ) with
      | some x =>
        simp only [hcells, Option.some.injEq, Prod.mk.injEq] at hperform
        obtain ⟨rfl, rfl⟩ := hperform
        exact ⟨Or.inl rfl, rfl⟩
      | none =>
        simp only [hcells, Option.some.injEq, Prod.mk.injEq] at hperform
        obtain ⟨rfl, rfl⟩ := hperform
        exact ⟨Or.inr ⟨rfl, inRange_bmod (by omega) _⟩, rfl⟩
    exact h.advance_result hf hs hrest hi (by rw [hk]; rfl) (by simp [hk])
      (h.resultSound_load hf hs hi hblock hsplit hsound hk ha hty hu hread.1) hread.2
  | @store x a bits ty ptrTy align hk hty ha hx =>
    simp only [hk, operands] at hvalues
    obtain ⟨u, p, rfl, hu, hp⟩ := mapM_two hvalues
    obtain rfl := (h.env a p hp).cell bits ha
    simp [hk] at hperform
    obtain ⟨rfl, rfl⟩ := hperform
    exact h.store hf hs hargs hrest hi hk hty ha hx hu hp
  | @arith op x y bits hk hop hty hw hx hy =>
    simp only [hk, operands] at hvalues
    obtain ⟨u, u', rfl, hu, hu'⟩ := mapM_two hvalues
    have hresult : v = (Transfer.sum op u u').bmod (2 ^ bits) ∧ w = c.world := by
      rcases hop with rfl | rfl <;>
        simp [hk, hty] at hperform <;>
        exact ⟨hperform.1.symm, hperform.2.symm⟩
    obtain ⟨rfl, rfl⟩ := hresult
    rw [hscript] at hslips
    exact h.advance_result hf hs hrest hi (by rw [hk]; rfl) (by simp [hk])
      (resultSound_arith hf hs hscript h.env hargs hi hk hop hty hw hx hy
        (slipsAt_of_neverSlips _ _ _ hslips) hu hu') rfl
  | @icmp p x y bits hk hty hw hx hy =>
    simp only [hk, operands] at hvalues
    obtain ⟨u, u', rfl, hu, hu'⟩ := mapM_two hvalues
    simp [hk] at hperform
    obtain ⟨rfl, rfl⟩ := hperform
    exact h.advance_result hf hs hrest hi (by rw [hk]; rfl) (by simp [hk])
      (resultSound_icmp hf hs hscript h.env hargs hi hk hty hw hx hy hu hu') rfl
  | phi hk _ _ _ =>
    rw [hk] at hplain
    cases hplain
  | @zext x narrow wide hk hty hw _ hlt hx =>
    simp only [hk, operands] at hvalues
    obtain ⟨u, rfl, hu⟩ := mapM_one hvalues
    simp [hk] at hperform
    obtain ⟨rfl, rfl⟩ := hperform
    exact h.advance_result hf hs hrest hi (by rw [hk]; rfl) (by simp [hk])
      (resultSound_zext hf hs hscript h.env hargs hi hk hty hw hlt hx hu) rfl
  | @bind callee ty k p bits hk _ hty _ _ _ =>
    have hcell := not_cell_of_kind hi (by simp [hk])
    simp [hk] at hperform
    obtain ⟨rfl, rfl⟩ := hperform
    refine h.advance hf hs hrest hi ?_ (update_sound h.env (resultSound_of_void hmem hi hty fun bits hb =>
      absurd hb (hcell bits))) (update_cell hcell) rfl
    intro a bits _
    simp [touched, hk]
  | branch hk _ => rcases hk with ⟨_, hk⟩ | ⟨_, _, _, hk⟩ | hk <;> rw [hk] at hplain <;> cases hplain
  | ret hk _ _ _ =>
    rw [hk] at hplain
    cases hplain

omit hi in
/-- A phi has its value already. -/
theorem phi (hphi : f.IsPhi i) : Along ctx descend f id s { c with rest := rest } := by
  obtain ⟨incoming, hphi⟩ := hphi
  obtain ⟨inst, hi, hk⟩ := Option.map_eq_some_iff.mp hphi
  refine h.advance hf hs hrest hi ?_ h.env (fun _ _ _ => rfl) rfl
  intro a bits ha heq
  rw [touched_own (by rw [hk]; rfl)] at heq
  cases heq
  exact not_cell_of_kind hi (by simp [hk]) bits ha

include hargs in
omit hi in
/-- A branch. A block that stands behind is entered with what is known at the end of
this one; a block in front is the header of a loop around this one. -/
theorem jump {k : InstKind} (hk : f.kind? i = some k)
    {b : BlockId} (htarget : machine.target? args c.env k = some b) {insts : List InstId}
    (henters : machine.Enters f args (some c.block) c.env b insts env') :
    Along ctx descend f id s ⟨b, insts, env', c.world, c.trace⟩ := by
  obtain ⟨block, done, r, hblock, hsplit, hscript, -, hsound⟩ := h.next hrest
  obtain ⟨hterm, hsucc⟩ := target?_mem htarget
  obtain ⟨rfl, hsuccs⟩ := branch_last hf hblock hsplit hk hterm
  rw [← hsuccs] at hsucc
  obtain ⟨inst, hi, rfl⟩ := Option.map_eq_some_iff.mp hk
  have hvis := visited_at hf hs hscript hi ctx descend
  obtain ⟨target, hblock', rfl⟩ := Option.map_eq_some_iff.mp henters.block
  have hb : b < f.blocks.length := (List.getElem?_eq_some_iff.mp hblock').1
  have hpred : c.block ∈ f.predecessors[b]?.getD [] :=
    Function.mem_predecessors.mpr ⟨(List.getElem?_eq_some_iff.mp hblock).1, hb, hsucc⟩
  have hcells := enters_cell henters
  have hentry : CellsSound f id (performAll ctx descend (f.before b []) s).bounds env' c.world := by
    intro a bits j ha hj
    rw [hcells a bits ha]
    by_cases hlt : c.block < b
    · obtain ⟨j', hj', hsub⟩ := exit_of_entry hf hs hb ha hj hsucc hlt hblock
      rw [hsplit, performAll_snoc, hvis.others _ ?_] at hj'
      · obtain ⟨v, henv, hv, hholds⟩ := hsound a bits j' ha hj'
        exact ⟨v, henv, hv, hsub _ hholds⟩
      · intro heq
        cases hkind : inst.kind with
        | br _ | condBr _ _ _ | ret _ =>
          rw [touched_own (by rw [hkind]; rfl)] at heq
          cases heq
          exact not_cell_of_kind hi (by simp [hkind]) bits ha
        | _ =>
          rw [hkind] at hterm
          cases hterm
    · have hlatch : c.block ∈ f.latches b :=
        List.mem_filter.mpr ⟨hpred, by simpa using not_lt.mp hlt⟩
      exact h.loops b hb (List.ne_nil_of_mem hlatch) ((f.loop_closed b).1 _ hlatch) a bits j ha hj
  refine ⟨enters_sound hf hs hargs h.env henters, ?_, ⟨target, [], hblock', rfl, hentry⟩, ?_, ?_⟩
  · intro a bits u v ha hu hv
    exact h.words a bits u v ha (by rw [← hcells a bits ha]; exact hu) hv
  · intro n hn hlatches hloop
    by_cases hbn : b = n
    · subst hbn
      exact hentry
    · have hprev := (f.loop_closed n).2 b hloop hbn c.block hpred
      intro a bits j ha hj
      dsimp only
      rw [hcells a bits ha]
      exact h.loops n hn hlatches hprev a bits j ha hj
  · intro a bits v ha hv
    exact h.allocated a bits v ha (by rw [← hcells a bits ha]; exact hv)

end Steps

include hargs

/-- The invariant holds at every point that an execution comes to. -/
theorem of_reaches
    (hslips : neverSlips ctx descend f.script s = true) {world : Memory}
    (h : machine.Reaches f args world c) : Along ctx descend f id s c := by
  induction h with
  | start hstart => exact start hf hs hstart
  | step _ hstep ih =>
    cases hstep with
    | phi hrest hphi => exact ih.phi hf hs hrest hphi
    | plain hrest hi hplain hvalues hperform =>
      exact ih.plain hf hs hargs hrest hi hslips hplain hvalues hperform
    | jump hrest hk htarget henters => exact ih.jump hf hs hargs hrest hk htarget henters

/-- A value returned lies in the hull of all values returned. -/
theorem returned (h : Along ctx descend f id s c) {v : ℤ} (hret : machine.Returns f args c (some v)) {op : Operand} {j : Bound}
    (hj : foldReturns (performAll ctx descend f.script s).frame.returns = some (op, j)) :
    j.Holds (whole v) := by
  cases hret with
  | @value i rest ty x _ hrest hk hx =>
    obtain ⟨_, _, r, -, -, hscript, hmem, -⟩ := h.next hrest
    obtain ⟨inst, hi, hadm⟩ := f.admitted_of_mem hf hmem
    rw [Function.kind?, hi, Option.map_some, Option.some_inj] at hk
    have hsub := @State.returned_subset _ _ _ _ ctx descend _ _ _ _ hf hs hscript hi
    simp only [State.returned, hk, Option.bind_some] at hsub
    simp only [foldReturns, Option.bind_eq_bind, Option.pure_def, Option.bind_eq_some_iff, Option.some.injEq,
      Prod.mk.injEq] at hj
    obtain ⟨known, hknown, _, -, hull, hhull, -, rfl⟩ := hj
    obtain ⟨y, hy, hyx⟩ := exists_of_mapM hknown (hsub List.mem_cons_self)
    obtain ⟨k, hop, rfl⟩ := Option.map_eq_some_iff.mp hyx
    have hholds : k.Holds (whole v) := by
      cases hadm with
      | ret hk' _ hbits hwidth =>
        rw [hk] at hk'
        cases hk'
        exact (operand_sound hf hs hscript h.env hargs hbits hwidth hx).2 k hop
      | branch hk' _ => simp [hk] at hk'
      | _ hk' => simp [hk] at hk'
    exact Interval.holds_hullOf (List.mem_map.mpr ⟨_, hy, rfl⟩) hholds hhull

end Along

/-! ## 4. The analysis of a function -/

/-- While a function is analysed, no sum or difference is wrapped to a single word
although its ends are a full turn apart. -/
def wrapsCleanly (ctx : Context) (run : Run) (id : FuncId) (f : Function) (bounds : Bounds) : Bool :=
  neverSlips ctx (descent ctx (ctx.module.functions.length - 1)) f.script
    (.ofCall run.restart id f bounds none)

theorem begins_ofCall {bounds : Bounds} (hfresh : ∀ key, key.function? = some id → bounds.get? key = none)
    (run : Run) (site : Option Location) : State.Begins f id bounds.seeds (.ofCall run id f bounds site) := by
  have hmemory : ∀ key ∈ (Frame.start id f).memory, f.IsSlot id key := by
    intro key hkey
    obtain ⟨⟨p, k⟩, hp, hkey⟩ := List.mem_filterMap.mp hkey
    rw [Option.ite_none_right_eq_some, Option.some_inj] at hkey
    exact Or.inr ⟨k, p, hkey.2.symm, List.mem_zipIdx_iff_getElem?.mp hp, hkey.1⟩
  refine ⟨⟨rfl, rfl, rfl, rfl, rfl, fun _ => rfl, hmemory, rfl, ?_, ?_, ?_⟩, rfl, fun j => hfresh _ rfl⟩
  · intro k j hj
    cases (hfresh (.arg id k) rfl).symm.trans hj
  · intro a bits j _ hj
    cases (hfresh (.inst id a) rfl).symm.trans hj
  · intro b e he
    cases he

section Analysis

variable {ctx : Context} {run : Run} {bounds : Bounds}

/-- Within its budget the analysis of a function on cells performs its script. What is
recorded for results and what is returned is not changed any more when it is left. -/
theorem analyzeFunction_eq (hid : ctx.module.functions[id]? = some f) (hf : f.isDirectMemory = true)
    (hfresh : ∀ key, key.function? = some id → bounds.get? key = none)
    (hbudget : f.layout.length ≤ ctx.limits.maxVisits) :
    let s := performAll ctx (descent ctx (ctx.module.functions.length - 1)) f.script
      (.ofCall run.restart id f bounds none)
    (∀ j, (∀ bits, f.cellBits? (.inst j) ≠ some bits) →
      (analyzeFunction ctx run id bounds).2.1.get? (.inst id j) = s.bounds.get? (.inst id j)) ∧
      (analyzeFunction ctx run id bounds).2.2 = foldReturns s.frame.returns := by
  intro s
  have hbegins : State.Begins f id bounds.seeds (.ofCall run.restart id f bounds none) :=
    begins_ofCall hfresh run.restart none
  have hlen : ctx.module.functions.length = ctx.module.functions.length - 1 + 1 := by
    have := (List.getElem?_eq_some_iff.mp hid).1
    omega
  have hblocks : blocks ctx (descent ctx (ctx.module.functions.length - 1)) 0 f.blocks
      (.ofCall run.restart id f bounds none) = s :=
    blocks_eq_performAll (countsOne hf) f.blocks 0 _ hbegins.tidy (List.Subset.refl _)
      (by simpa [ofCall, Run.restart, Run.initial, Function.layout] using hbudget)
  have htidy : Tidy f id bounds.seeds s := tidy_at (r := []) hf hbegins (List.append_nil _).symm
  unfold analyzeFunction
  rw [hlen, analyzeWithin_succ hid, hblocks]
  exact ⟨fun j hj => get?_restore_of_not_slot htidy _ _ hj, rfl⟩

/-- **The range analysis is sound for functions on words in cells**: on every execution,
for any blocks in any order and any loops, every integer that an instruction yields lies
in the interval recorded for it, and the value returned lies in the interval of the
result. The arguments have to lie in the ranges that they are bound to, and no sum may
be wrapped over a full turn. -/
theorem analyzeFunction_sound (hid : ctx.module.functions[id]? = some f) (hf : f.isDirectMemory = true)
    (hfresh : ∀ key, key.function? = some id → bounds.get? key = none)
    (hbudget : f.layout.length ≤ ctx.limits.maxVisits) (hwraps : wrapsCleanly ctx run id f bounds = true)
    (hargs : f.ArgsWithin bounds.seeds args) {world : Memory} {c : Machine.Config ℤ Memory}
    (hc : machine.Reaches f args world c) :
    (∀ j inst bits v i, f.inst? j = some inst → inst.ty = .int bits → c.env j = some v →
      (analyzeFunction ctx run id bounds).2.1.get? (.inst id j) = some i → i.Holds (whole v)) ∧
    ∀ v op i, machine.Returns f args c (some v) →
      (analyzeFunction ctx run id bounds).2.2 = some (op, i) → i.Holds (whole v) := by
  obtain ⟨hget, hresult⟩ := @analyzeFunction_eq _ _ _ run _ hid hf hfresh hbudget
  have hbegins : State.Begins f id bounds.seeds (.ofCall run.restart id f bounds none) :=
    begins_ofCall hfresh run.restart none
  have halong := Along.of_reaches hf hbegins hargs hwraps hc
  refine ⟨?_, ?_⟩
  · intro j inst bits v i hi hty hv hj
    rw [hget j (f.not_cell_of_int hf (halong.env j v hv).listed hi hty)] at hj
    exact (halong.env j v hv).holds inst bits i hi hty hj
  · intro v op i hret hj
    rw [hresult] at hj
    exact halong.returned hf hbegins hargs hret hj

end Analysis

/-! ## 5. A sum of two bytes -/

/-- Two bytes, each bound to a range, and their sum. -/
def sumOfBytes : Function where
  name := "sum"
  retTy := .int 8
  params := [⟨"x", .int 8⟩, ⟨"y", .int 8⟩]
  rangeType := none
  blocks := [⟨"entry", [0, 1, 2, 3]⟩]
  insts := [
    ⟨none, .call "llvm.dbg.value" [(.int 8, .arg 0)], .void, some ⟨"x", .named "A"⟩, 0, false⟩,
    ⟨none, .call "llvm.dbg.value" [(.int 8, .arg 1)], .void, some ⟨"y", .named "B"⟩, 0, false⟩,
    ⟨some "s", .binary .add (.arg 0) (.arg 1), .int 8, none, 0, false⟩,
    ⟨none, .ret (some (.int 8, .inst 2)), .void, none, 0, false⟩]

/-- The module of the sum alone. -/
def sumContext : Context := ⟨⟨none, [], [], [], [sumOfBytes]⟩, .default, .default, true⟩

/-- The ranges of the two bytes. -/
def sumBounds (a b : Bound) : Bounds := .ofSeeds (.ofList [("A", a), ("B", b)])

theorem sumOfBytes_argsWithin {a b : Bound} {u v : ℤ} (hu : InRange 8 u) (hv : InRange 8 v)
    (ha : a.Holds (whole u)) (hb : b.Holds (whole v)) : sumOfBytes.ArgsWithin (sumBounds a b).seeds [u, v] := by
  have hfirst : sumOfBytes.bindings (sumBounds a b).seeds 0 = [a] := rfl
  have hsecond : sumOfBytes.bindings (sumBounds a b).seeds 1 = [b] := rfl
  intro k w hk
  rcases k with _ | _ | k
  · cases hk
    refine ⟨fun p bits hp hty => by cases hp; cases hty; exact hu, fun i hi => ?_⟩
    rw [hfirst, List.mem_singleton] at hi
    exact hi ▸ ha
  · cases hk
    refine ⟨fun p bits hp hty => by cases hp; cases hty; exact hv, fun i hi => ?_⟩
    rw [hsecond, List.mem_singleton] at hi
    exact hi ▸ hb
  · simp at hk

/-- Every execution comes to the sum and returns it. -/
theorem sumOfBytes_run (u v : ℤ) (world : Memory) :
    ∃ c, machine.Reaches sumOfBytes [u, v] world c ∧ c.env 2 = some ((u + v).bmod (2 ^ 8)) ∧
      machine.Returns sumOfBytes [u, v] c (some ((u + v).bmod (2 ^ 8))) := by
  have h0 : machine.Reaches sumOfBytes [u, v] world ⟨0, [0, 1, 2, 3], fun _ => none, world, []⟩ := by
    refine .start (.intro ⟨rfl, ?_, fun _ _ => rfl⟩)
    intro i hi incoming hphi
    simp only [List.mem_cons, List.not_mem_nil, or_false] at hi
    rcases hi with rfl | rfl | rfl | rfl <;> cases hphi
  have h1 := h0.step (.plain rfl rfl rfl rfl rfl)
  have h2 := h1.step (.plain rfl rfl rfl rfl rfl)
  have h3 := h2.step (.plain rfl rfl rfl rfl rfl)
  exact ⟨_, h3, rfl, .value rfl rfl rfl⟩

/-- A byte from 120 to 127 and ten: the sum wraps, and the wrapped interval holds it. -/
theorem analyzeFunction_sound_wrapped :
    sumOfBytes.isDirectMemory = true ∧
    wrapsCleanly sumContext .initial 0 sumOfBytes
      (sumBounds ⟨ofInt 120, ofInt 127⟩ ⟨ofInt 10, ofInt 10⟩) = true ∧
    (analyzeFunction sumContext .initial 0
      (sumBounds ⟨ofInt 120, ofInt 127⟩ ⟨ofInt 10, ofInt 10⟩)).2.1.get? (.inst 0 2) =
        some ⟨ofInt (-126), ofInt (-119)⟩ ∧
    (⟨ofInt (-126), ofInt (-119)⟩ : Bound).Holds (whole (-121)) := by
  have hclass : sumOfBytes.isDirectMemory = true := by decide +kernel
  have hwraps : wrapsCleanly sumContext .initial 0 sumOfBytes
      (sumBounds ⟨ofInt 120, ofInt 127⟩ ⟨ofInt 10, ofInt 10⟩) = true := by decide +kernel
  have hrecorded : (analyzeFunction sumContext .initial 0
      (sumBounds ⟨ofInt 120, ofInt 127⟩ ⟨ofInt 10, ofInt 10⟩)).2.1.get? (.inst 0 2) =
        some ⟨ofInt (-126), ofInt (-119)⟩ := by decide +kernel
  obtain ⟨c, hc, hsum, -⟩ := sumOfBytes_run 125 10 ⟨fun _ => none, fun _ => 0⟩
  have hargs : sumOfBytes.ArgsWithin (sumBounds ⟨ofInt 120, ofInt 127⟩ ⟨ofInt 10, ofInt 10⟩).seeds [125, 10] :=
    sumOfBytes_argsWithin (by decide) (by decide)
      ((Interval.holds_iff_contains (by norm_num)).mpr (by decide))
      ((Interval.holds_iff_contains (by norm_num)).mpr (by decide))
  have hsound := (@analyzeFunction_sound _ 0 _ sumContext .initial _ rfl hclass
    (fun key _ => rfl) (by decide) hwraps hargs _ _ hc).1
  exact ⟨hclass, hwraps, hrecorded, hsound 2 _ 8 _ _ rfl rfl hsum hrecorded⟩

/-- The difference of the ends is rounded: bytes from -128 to -1 and from -128 to a
little more than zero. The recorded interval is the single number zero, and -1 is a sum
that it does not hold. -/
theorem recorded_sum_lost_full_turn :
    (analyzeFunction sumContext .initial 0 (sumBounds ⟨-128.0, -1.0⟩ ⟨-128.0, 1e-14⟩)).2.1.get? (.inst 0 2) =
        some ⟨0.0, 0.0⟩ ∧
    sumOfBytes.ArgsWithin (sumBounds ⟨-128.0, -1.0⟩ ⟨-128.0, 1e-14⟩).seeds [-1, 0] ∧
    (∃ c, machine.Reaches sumOfBytes [-1, 0] ⟨fun _ => none, fun _ => 0⟩ c ∧ c.env 2 = some (-1)) ∧
    ¬ (⟨0.0, 0.0⟩ : Bound).Holds (whole (-1)) := by
  refine ⟨by decide +kernel, ?_, ?_, ?_⟩
  · exact sumOfBytes_argsWithin (by decide) (by decide)
      ((Interval.holds_iff_contains (by norm_num)).mpr (by decide))
      ((Interval.holds_iff_contains (by norm_num)).mpr (by decide))
  · obtain ⟨c, hc, hsum, -⟩ := sumOfBytes_run (-1) 0 ⟨fun _ => none, fun _ => 0⟩
    exact ⟨c, hc, hsum⟩
  · rw [Interval.holds_iff_contains (by norm_num)]
    decide

end RangedIR
