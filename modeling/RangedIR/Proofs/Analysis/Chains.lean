/-
RangedIR.Proofs.Analysis.Chains — chains of arithmetic on literals.

An instruction whose operands are literals, or results of such instructions, has one word
in every execution. What is recorded for it is that word, whichever calls and loops it
stands in, and the literal that replaces it writes that word.
-/
import RangedIR.Proofs.Analysis.Activations
import RangedIR.Proofs.Analysis.Folding
import RangedIR.Proofs.Code.Literal
import RangedIR.Proofs.Optimize.Simultaneous
import RangedIR.Proofs.Semantics.Simulation

namespace RangedIR

open Number Word

/-! ## 1. The words of a chain -/

/-- Arithmetic on literals gives the operand a word of the width. No number of the chain is
larger than binary64 counts. -/
inductive Function.Computes (f : Function) {bits : Nat} : Operand → BitVec bits → Prop
  | literal {c : Constant} {u : ℤ} : c.number? = some (whole u) → InRange bits u → Computes f (.const c) (.ofInt bits u)
  | result {i : InstId} {inst : Inst} {op : BinaryOp} {l r : Operand} {x y z : BitVec bits} : f.inst? i = some inst →
      inst.kind = .binary op l r → inst.ty = .int bits → Computes f l x → Computes f r y → result? op x y = some z →
      IsCounted op x y → Computes f (.inst i) z

theorem InstKind.isBinary_of_isAddress {k : InstKind} (h : k.isAddress = true) : k.isBinary = false := by
  cases k with
  | binary => cases h
  | _ => rfl

/-- Arithmetic alone fixes the value under a key. -/
def Module.Fixes (m : Module) (key : ValueKey) (n : ℤ) : Prop :=
  ∃ d f i bits, ∃ x : BitVec bits, key = .inst d i ∧ m.functions[d]? = some f ∧ (1 ≤ bits ∧ bits ≤ 64) ∧
    f.Computes (.inst i) x ∧ x.toInt = n

/-- No instruction takes the result of arithmetic as an address, and no variable is bound
to one. -/
def Module.AddressesApart (m : Module) : Prop :=
  ∀ f ∈ m.functions, ∀ i inst, f.inst? i = some inst → ∀ j, .inst j ∈ inst.kind.addresses →
    ∀ k, f.kind? j = some k → k.isBinary = false

namespace Module

variable {m : Module}

/-- Nothing fixes the value under the key. -/
def Open (m : Module) (key : ValueKey) : Prop := ∀ n, ¬ m.Fixes key n

theorem open_global (g : GlobalId) : m.Open (.global g) := by
  rintro n ⟨d, f, i, bits, x, ⟨⟩, -⟩

theorem open_arg (d : FuncId) (i : Nat) : m.Open (.arg d i) := by
  rintro n ⟨d, f, i, bits, x, ⟨⟩, -⟩

theorem open_of_kind {d : FuncId} {f : Function} {i : InstId} (hd : m.functions[d]? = some f)
    (hk : ∀ k, f.kind? i = some k → k.isBinary = false) : m.Open (.inst d i) := by
  rintro n ⟨d', f', i', bits, x, hkey, hd', -, hx, -⟩
  cases hkey
  rw [hd] at hd'
  cases hd'
  cases hx with
  | result hinst hkind =>
    have hbinary := hk (.binary _ _ _) (by rw [Function.kind?, hinst, ← hkind]; rfl)
    cases hbinary

/-- An address is open. -/
theorem AddressesApart.open (h : m.AddressesApart) {d : FuncId} {f : Function} (hd : m.functions[d]? = some f)
    {i : InstId} {inst : Inst} (hinst : f.inst? i = some inst) {op : Operand} (hop : op ∈ inst.kind.addresses)
    {key : ValueKey} (hkey : ValueKey.ofOperand? d op = some key) : m.Open key := by
  cases op with
  | inst j =>
    cases hkey
    exact open_of_kind hd (h f (List.mem_of_getElem? hd) i inst hinst j hop)
  | arg i => cases hkey; exact open_arg d i
  | global g => cases hkey; exact open_global g
  | const c | undef => cases hkey

end Module

/-! ## 2. Tables -/

/-- What is known of a value that is fixed is that value. -/
def Bounds.Faithful (m : Module) (b : Bounds) : Prop :=
  ∀ key n, m.Fixes key n → ∀ i, b.get? key = some i → i.Pins n

/-- The calls that may be taken over are faithful. -/
def Run.Faithful (ctx : Context) (r : Run) : Prop :=
  ctx.reuse = true → r.memo.All fun _ summary => summary.scope.Faithful ctx.module

/-- An activation of a function whose addresses are open. -/
structure State.Faithful (ctx : Context) (c : FuncId) (f : Function) (s : State) : Prop where
  run : s.run.Faithful ctx
  id : s.frame.id = c
  function : s.frame.function = f
  within : s.frame.Within ctx.module.Open
  bounds : s.bounds.Faithful ctx.module

def Descent.Faithful (ctx : Context) (descend : Descent) : Prop :=
  ∀ c run bounds site, run.Faithful ctx → bounds.Faithful ctx.module →
    (descend c run bounds site).1.Faithful ctx ∧ (descend c run bounds site).2.1.Faithful ctx.module

namespace Bounds

variable {m : Module} {b child : Bounds}

theorem Faithful.of_staysIn (h : b.StaysIn m.Open) : b.Faithful m := by
  intro key n hfix i hi
  rw [h key fun hopen => hopen n hfix] at hi
  cases hi

/-- A table that knows what a faithful one knows of the values that are fixed is faithful. -/
theorem Faithful.of_get? (hb : b.Faithful m) (h : ∀ key, ¬ m.Open key → child.get? key = b.get? key) :
    child.Faithful m := by
  intro key n hfix i hi
  rw [h key fun hopen => hopen n hfix] at hi
  exact hb key n hfix i hi

variable {key : ValueKey}

theorem Faithful.insert (hb : b.Faithful m) {i : Bound} (hi : ∀ n, m.Fixes key n → i.Pins n) :
    (b.insert key i).Faithful m := by
  intro other n hfix j hj
  rw [get?_insert] at hj
  split_ifs at hj with heq
  · subst heq
    cases hj
    exact hi n hfix
  · exact hb other n hfix j hj

theorem isGlobal_of_fixes {n : ℤ} (h : m.Fixes key n) : key.isGlobal = false := by
  obtain ⟨d, f, i, bits, x, rfl, -⟩ := h
  rfl

/-- What a call adds to what is known of a value that is fixed agrees with it. -/
theorem pins_mergeChild {n : ℤ} (hlocal : key.isGlobal = false)
    (hb : ∀ i, b.get? key = some i → i.Pins n) (hchild : ∀ i, child.get? key = some i → i.Pins n) :
    ∀ i, (b.mergeChild child).get? key = some i → i.Pins n := by
  intro i hi
  rw [get?_mergeChild_eq] at hi
  cases hc : child.get? key with
  | none => exact hb i (by simpa [merged, hlocal, hc] using hi)
  | some j =>
    cases hk : b.get? key with
    | none =>
      obtain rfl : j = i := by simpa [merged, hlocal, hc, hk] using hi
      exact hchild j hc
    | some known =>
      obtain rfl : known.hull j = i := by simpa [merged, hlocal, hc, hk] using hi
      exact (hb known hk).hull (hchild j hc)

end Bounds

/-! ## 3. Activations -/

section Activation

variable {ctx : Context} {c d : FuncId} {f : Function} {s t : State} {descend : Descent}

theorem Run.Faithful.of_memo {r r' : Run} (h : r.Faithful ctx) (hmemo : r'.memo = r.memo) : r'.Faithful ctx :=
  fun hreuse => by rw [hmemo]; exact h hreuse

namespace State

theorem Faithful.of_spares (hs : s.Faithful ctx c f) (h : Spares ctx.module.Open s t) : t.Faithful ctx c f where
  run := hs.run.of_memo h.memo
  id := h.id.trans hs.id
  function := h.function.trans hs.function
  within := h.within
  bounds := hs.bounds.of_get? h.bounds

/-- What is known of an operand of a chain is its word. -/
theorem Faithful.operand? (hs : s.Faithful ctx c f) (hc : ctx.module.functions[c]? = some f) {bits : Nat}
    (hbits : 1 ≤ bits ∧ bits ≤ 64) {op : Operand} {x : BitVec bits} (hx : f.Computes op x) (hsmall : |x.toInt| ≤ 2 ^ 53)
    {i : Bound} (hi : s.operand? op = some i) : i.Pins x.toInt := by
  cases hx with
  | @literal k u hk hu =>
    have hword : (BitVec.ofInt bits u).toInt = u := by rw [BitVec.toInt_ofInt, hu.bmod hbits.1]
    rw [hword] at hsmall ⊢
    cases hi
    refine Interval.pins_singleton ?_
    cases k with
    | int n =>
      cases whole_injective (Option.some.inj hk)
      exact denotes_ofInt hsmall
    | float v =>
      simp only [Constant.number?] at hk
      split_ifs at hk with hnum
      exact denotes_of_exact hnum (Option.some.inj hk)
    | bool b =>
      cases whole_injective (Option.some.inj hk)
      cases b
      · simpa [Constant.value] using denotes_zero
      · simpa [Constant.value] using denotes_one
  | @result j inst op l r y z w hinst hkind hty hl hr hw hcounted =>
    have hkey : s.operand? (.inst j) = s.bounds.get? (.inst c j) := by
      rw [← hs.id]
      rfl
    rw [hkey] at hi
    exact hs.bounds _ _ ⟨c, f, j, bits, x, rfl, hc, hbits, .result hinst hkind hty hl hr hw hcounted, rfl⟩ i hi

/-- The result of an instruction is recorded as what it is fixed to. -/
theorem Faithful.result (hs : s.Faithful ctx c f) (hc : ctx.module.functions[c]? = some f) {i : InstId} {inst : Inst}
    (hinst : f.inst? i = some inst) {r : Bound} (hr : (s.transfer ctx descend i inst).2 = some r) {n : ℤ}
    (hfix : ctx.module.Fixes (.inst c i) n) : r.Pins n := by
  obtain ⟨c', f', i', bits, x, hkey, hc', hbits, hx, rfl⟩ := hfix
  cases hkey
  rw [hc] at hc'
  cases hc'
  cases hx with
  | result hinst' hkind hty hl hr' hw hcounted =>
    rw [hinst] at hinst'
    cases hinst'
    unfold transfer at hr
    rw [hkind, hty] at hr
    exact Transfer.pins_binary hbits.1 hbits.2 (fun _ => hs.operand? hc hbits hl hcounted.left)
      (fun _ => hs.operand? hc hbits hr' hcounted.right) hw hcounted hr

theorem Faithful.summarize (hdescend : descend.Faithful ctx) (hs : s.run.Faithful ctx) (i : InstId)
    (args : List (Option Bound)) :
    (s.summarize ctx descend i d args).1.Faithful ctx ∧
      (s.summarize ctx descend i d args).2.scope.Faithful ctx.module := by
  unfold State.summarize
  dsimp only
  split
  next summary hmemo =>
    split_ifs at hmemo with hreuse
    exact ⟨hs, (hs hreuse).find? hmemo⟩
  next =>
    obtain ⟨hrun, hscope⟩ := hdescend d s.run (calleeScope s.bounds d args) (some (s.frame.location i)) hs
      (.of_staysIn (staysIn_calleeScope Module.open_global (Module.open_arg d) s.bounds args))
    exact ⟨fun hreuse => (hrun hreuse).insert hscope, hscope⟩

theorem Faithful.callDefined (hdescend : descend.Faithful ctx) (hs : s.Faithful ctx c f) (i : InstId) (g : Function)
    {args : List (Ty × Operand)}
    (hargs : ∀ arg ∈ args, arg.1.isPointer = true → ∀ addr, s.frame.key? arg.2 = some addr → ctx.module.Open addr) :
    (s.callDefined ctx descend i d g args).1.Faithful ctx c f := by
  cases hrefusal : s.refusal? ctx d g.name with
  | some remark =>
    rw [callDefined_of_refusal hrefusal]
    exact ⟨hs.run.of_memo rfl, hs.id, hs.function, hs.within, hs.bounds⟩
  | none =>
    obtain ⟨hplaces, -, hmemo, hwithin, hmerged⟩ := callDefined_of_followed hrefusal descend i args
    obtain ⟨hrun, hscope⟩ := Faithful.summarize (d := d) hdescend hs.run i (s.argBounds args)
    have hinside := hwithin ctx.module.Open hs.within hargs
    refine ⟨hrun.of_memo hmemo, hplaces.id.trans hs.id, hplaces.function.trans hs.function, hinside, ?_⟩
    intro key n hfix j hj
    have hlocal := Bounds.isGlobal_of_fixes hfix
    obtain ⟨b, hb, heq⟩ := hmerged key hlocal fun hmem => hinside.memory key hmem n hfix
    rw [heq] at hj
    exact Bounds.pins_mergeChild hlocal (by rw [hb]; exact hs.bounds key n hfix) (hscope key n hfix) j hj

theorem Faithful.transfer (hdescend : descend.Faithful ctx) (hm : ctx.module.AddressesApart)
    (hc : ctx.module.functions[c]? = some f) (hs : s.Faithful ctx c f) {i : InstId} {inst : Inst}
    (hinst : f.inst? i = some inst) : (s.transfer ctx descend i inst).1.Faithful ctx c f := by
  have haddr : ∀ op ∈ inst.kind.addresses, ∀ addr, s.frame.key? op = some addr → ctx.module.Open addr := by
    intro op hop addr hkey
    unfold Frame.key? at hkey
    rw [hs.id] at hkey
    exact hm.open hc hinst hop hkey
  refine transfer_cases (P := (·.Faithful ctx c f)) hs (fun hcall => ?_) fun callee args d g hkind hdebug _ => ?_
  · refine hs.of_spares (spares_transfer Module.open_global (Module.open_arg _) hs.within ctx descend i inst haddr
      (fun hself => ?_) hcall)
    rw [hs.id]
    refine Module.open_of_kind hc fun k hk => ?_
    rw [Function.kind?, hinst] at hk
    cases hk
    exact InstKind.isBinary_of_isAddress hself
  · refine Faithful.callDefined hdescend hs i _ fun arg harg hptr => haddr arg.2 ?_
    rw [hkind, InstKind.addresses, if_neg (by simp [hdebug])]
    exact List.mem_map_of_mem (List.mem_filter.mpr ⟨harg, hptr⟩)

theorem Faithful.step (hdescend : descend.Faithful ctx) (hm : ctx.module.AddressesApart)
    (hc : ctx.module.functions[c]? = some f) (hs : s.Faithful ctx c f) (i : InstId) :
    (s.step ctx descend i).Faithful ctx c f := by
  unfold State.step
  rw [hs.function]
  cases hinst : f.inst? i with
  | none => exact hs
  | some inst =>
    have ht := hs.transfer hdescend hm hc hinst
    dsimp only
    split
    next r hr =>
      refine ⟨ht.run, ht.id, ht.function, ht.within, ht.bounds.insert fun n hfix => ?_⟩
      rw [ht.id] at hfix
      exact hs.result hc hinst hr hfix
    next => exact ht

theorem Faithful.restore (hs : s.Faithful ctx c f) (mem : MemoryState) :
    (s.restore ctx.module mem).Faithful ctx c f where
  run := hs.run.of_memo rfl
  id := hs.id
  function := hs.function
  within := ⟨hs.within.memory, ⟨hs.within.aliases.places, hs.within.aliases.slots⟩⟩
  bounds := by
    refine hs.bounds.of_get? fun key hkey => ?_
    refine (Frame.get?_restoreSlots s.frame ctx.module s.bounds mem key).trans (if_neg ?_)
    obtain ⟨n, hfix⟩ := not_forall_not.mp hkey
    exact Frame.notMem_memoryKeys (Bounds.isGlobal_of_fixes hfix) fun hmem => hs.within.memory key hmem n hfix

theorem Faithful.blocks (hdescend : descend.Faithful ctx) (hm : ctx.module.AddressesApart)
    (hc : ctx.module.functions[c]? = some f) (hs : s.Faithful ctx c f) :
    (State.blocks ctx descend 0 f.blocks s).Faithful ctx c f := by
  refine blocks_induction (fun t b ht => ?_) (fun t ht => ?_) (fun t b ht => ?_) f.blocks 0 s
    (fun t ht i _ => ht.step hdescend hm hc i) hs
  · unfold enterBlock
    split
    · exact ht.restore _
    · exact ht
  · exact ⟨ht.run.of_memo (tick_same t.run ctx.limits t.frame.function.name).2.1, ht.id, ht.function, ht.within, ht.bounds⟩
  · exact ⟨ht.run, ht.id, ht.function, ⟨ht.within.memory, ht.within.aliases⟩, ht.bounds⟩

end State

/-- Going through a function, with all the calls that are followed from it, keeps the tables
faithful. -/
theorem faithful_descent (hm : ctx.module.AddressesApart) (depth : Nat) : (descent ctx depth).Faithful ctx := by
  induction depth with
  | zero => exact fun c run bounds site hrun hbounds => ⟨hrun, hbounds⟩
  | succ depth ih =>
    intro c run bounds site hrun hbounds
    unfold descent
    cases hc : ctx.module.functions[c]? with
    | none =>
      rw [analyzeWithin, hc]
      exact ⟨hrun, hbounds⟩
    | some f =>
      rw [analyzeWithin_succ hc]
      have hstart : (State.ofCall run c f bounds site).Faithful ctx c f :=
        ⟨hrun.of_memo rfl, rfl, rfl, Frame.within_start f (Module.open_arg c), hbounds⟩
      have hend := (hstart.blocks ih hm hc).restore
      exact ⟨(hend _).run.of_memo rfl, (hend _).bounds⟩

theorem faithful_analyzeFunction (hm : ctx.module.AddressesApart) {bounds : Bounds}
    (hbounds : bounds.Faithful ctx.module) (run : Run) (id : FuncId) :
    (analyzeFunction ctx run id bounds).2.1.Faithful ctx.module :=
  (faithful_descent hm ctx.module.functions.length id run.restart bounds none (fun _ => Table.all_empty) hbounds).2

end Activation

/-! ## 4. Literals -/

namespace Function

variable {f : Function} {id : FuncId} {b : Bounds}

/-- A substitution that replaces results by literals of their intervals. -/
def IsLiteral (id : FuncId) (b : Bounds) (σ : Operand → Operand) : Prop :=
  ∀ op, σ op = op ∨ ∃ i c r, op = .inst i ∧ σ op = .const c ∧ b.get? (.inst id i) = some r ∧ IsNumber r.lo ∧
    c.number? = some (Number.exact r.lo)

theorem number?_literalResult {i : InstId} {c : Constant} (h : f.literalResult? id b i = some c) :
    ∃ r, b.get? (.inst id i) = some r ∧ IsNumber r.lo ∧ c.number? = some (Number.exact r.lo) := by
  obtain ⟨inst, op, lhs, rhs, r, -, -, hr, -, hone, hc⟩ := literalResult?_eq_some.mp h
  have hnum := (same_true_iff.mp hone).1
  exact ⟨r, hr, hnum, (Constant.number?_of_forType? hnum hc).1⟩

theorem substituteIn_eq (id : FuncId) (b : Bounds) (ids : List InstId) (f : Function) (hf : f.Placed) (hnodup : ids.Nodup)
    (hids : ∀ i ∈ ids, i ∈ f.layout) :
    ∃ σ, IsLiteral id b σ ∧ ∀ u ∈ (substituteIn id b ids f).1.layout, u ∈ f.layout ∧
      (substituteIn id b ids f).1.kind? u = (f.kind? u).map fun k => k.mapOperands σ := by
  obtain ⟨hreplaces, -⟩ := replaces_substituteIn id b hf hnodup hids
  refine ⟨written _, fun op => ?_, fun u hu => ⟨(hreplaces.mem_layout.mp hu).1, hreplaces.kind?_eq hu⟩⟩
  cases op with
  | inst i =>
    cases hi : (if i ∈ ids then f.literalResult? id b i else none) with
    | none => exact .inl (by simp [written, hi])
    | some c =>
      obtain ⟨r, hr, hnum, hvalue⟩ := number?_literalResult (Option.ite_none_right_eq_some.mp hi).2
      exact .inr ⟨i, c, r, rfl, by simp [written, hi], hr, hnum, hvalue⟩
  | _ => exact .inl rfl

end Function

/-- Where the analysis and the substitution after it replace the result of a chain of
arithmetic on literals, they replace it by the word that the chain has in two's complement. -/
theorem substituted_literal_exact {ctx : Context} {id : FuncId} {f : Function} {bounds : Bounds} (run : Run)
    (hid : ctx.module.functions[id]? = some f) (hf : f.Placed) (hm : ctx.module.AddressesApart)
    (hfresh : ∀ d i, bounds.get? (.inst d i) = none) :
    let g := (f.substituteConstants id (analyzeFunction ctx run id bounds).2.1).1
    ∃ σ : Operand → Operand, (∀ u ∈ g.layout, u ∈ f.layout ∧ g.kind? u = (f.kind? u).map fun k => k.mapOperands σ) ∧
      ∀ op, σ op = op ∨ ∃ i c, op = .inst i ∧ σ op = .const c ∧
        ∀ bits, 1 ≤ bits → bits ≤ 64 → ∀ x : BitVec bits, f.Computes (.inst i) x → c.number? = some (whole x.toInt) := by
  have hbounds : bounds.Faithful ctx.module := by
    rintro key n ⟨d, f, i, bits, x, rfl, -⟩ j hj
    rw [hfresh] at hj
    cases hj
  have hfaithful := faithful_analyzeFunction hm hbounds run id
  obtain ⟨σ, hσ, hkinds⟩ := Function.substituteIn_eq id (analyzeFunction ctx run id bounds).2.1 f.layout f hf hf.nodup
    fun _ hi => hi
  refine ⟨σ, hkinds, fun op => ?_⟩
  rcases hσ op with hsame | ⟨i, c, r, hop, hc, hr, -, hvalue⟩
  · exact .inl hsame
  · refine .inr ⟨i, c, hop, hc, fun bits h0 hb x hx => ?_⟩
    have hpins := hfaithful (.inst id i) x.toInt ⟨id, f, i, bits, x, rfl, hid, ⟨h0, hb⟩, hx, rfl⟩ r hr
    rw [hvalue, hpins.lo.exact]
    rfl

/-- Two operations on bytes, both of which wrap. -/
def bytes : Function where
  name := "bytes"
  retTy := .int 8
  params := []
  rangeType := none
  blocks := [⟨"entry", [0, 1, 2]⟩]
  insts := [
    ⟨some "a", .binary .add (.const (.int 100)) (.const (.int 100)), .int 8, none, 0, false⟩,
    ⟨some "b", .binary .mul (.inst 0) (.const (.int 3)), .int 8, none, 0, false⟩,
    ⟨none, .ret (some (.int 8, .inst 1)), .void, none, 0, false⟩]

/-- The module of the bytes. -/
def bytesContext : Context := ⟨⟨none, [], [], [], [bytes]⟩, .default, .default, true⟩

theorem bytes_computes : bytes.Computes (.inst 1) (88#8) := by
  have hliteral : ∀ u : ℤ, InRange 8 u → bytes.Computes (.const (.int u)) (BitVec.ofInt 8 u) := fun u => .literal rfl
  have hsum : bytes.Computes (.inst 0) (200#8) := by
    refine .result (i := 0) rfl rfl rfl (hliteral 100 (by decide)) (hliteral 100 (by decide)) ?_ ?_
    · decide
    · exact ⟨by decide, by decide, by decide, by decide⟩
  refine .result (i := 1) rfl rfl rfl hsum (hliteral 3 (by decide)) ?_ ?_
  · decide
  · exact ⟨by decide, by decide, by decide, by decide⟩

theorem bytesContext_addressesApart : bytesContext.module.AddressesApart := by
  intro f hf i inst hinst j hj
  obtain rfl := List.mem_singleton.mp hf
  have hmem : inst ∈ bytes.insts := List.mem_of_getElem? hinst
  simp only [bytes, List.mem_cons, List.not_mem_nil, or_false] at hmem
  rcases hmem with rfl | rfl | rfl <;> cases hj

/-- The result of both is replaced by the word that it is. -/
theorem substituted_literal_exact_bytes :
    bytes.Computes (.inst 1) (88#8) ∧
    ∃ σ : Operand → Operand,
      ((bytes.substituteConstants 0 (analyzeFunction bytesContext Run.initial 0 (.ofSeeds .empty)).2.1).1.kind? 2).map
        InstKind.operands = some [σ (.inst 1)] ∧
      σ (.inst 1) ≠ .inst 1 ∧ ∃ c, σ (.inst 1) = .const c ∧ c.number? = some (whole 88) := by
  refine ⟨bytes_computes, ?_⟩
  have hf : bytes.WellFormed := Function.wellFormed_of_isWellFormed (by decide)
  have hid : bytesContext.module.functions[0]? = some bytes := rfl
  have hfresh : ∀ d i, (Bounds.ofSeeds .empty).get? (.inst d i) = none := fun _ _ => rfl
  obtain ⟨σ, hkinds, hσ⟩ :=
    substituted_literal_exact Run.initial hid hf.toPlaced bytesContext_addressesApart hfresh
  have hkind := congrArg (Option.map InstKind.operands) (hkinds 2 (by decide +kernel)).2
  have hnew : ((bytes.substituteConstants 0 (analyzeFunction bytesContext Run.initial 0 (.ofSeeds .empty)).2.1).1.kind?
      2).map InstKind.operands = some [.const (.int 88)] := by decide +kernel
  have hvalue : σ (.inst 1) = .const (.int 88) := by
    have hsome : some [σ (.inst 1)] = some [.const (.int 88)] := hkind.symm.trans hnew
    simpa using hsome
  refine ⟨σ, hkind, by rw [hvalue]; simp, ?_⟩
  rcases hσ (.inst 1) with hsame | ⟨i, c, hi, hc, hexact⟩
  · rw [hvalue] at hsame
    cases hsame
  · cases hi
    exact ⟨c, hc, hexact 8 (by decide) (by decide) _ bytes_computes⟩

/-- The square of the greatest word of 32 bits. -/
def square : Function where
  name := "square"
  retTy := .int 32
  params := []
  rangeType := none
  blocks := [⟨"entry", [0, 1]⟩]
  insts := [
    ⟨some "c", .binary .mul (.const (.int 2147483647)) (.const (.int 2147483647)), .int 32, none, 0, false⟩,
    ⟨none, .ret (some (.int 32, .inst 0)), .void, none, 0, false⟩]

/-- The module of the square. -/
def squareContext : Context := ⟨⟨none, [], [], [], [square]⟩, .default, .default, true⟩

/-- The product does not fit into binary64, and a wrong word replaces it. -/
theorem square_replaced_by_zero :
    result? .mul (2147483647#32) (2147483647#32) = some 1#32 ∧
    ((square.substituteConstants 0 (analyzeFunction squareContext Run.initial 0 (.ofSeeds .empty)).2.1).1.kind? 1).map
      InstKind.operands = some [.const (.int 0)] :=
  ⟨by decide, by decide +kernel⟩

end RangedIR
