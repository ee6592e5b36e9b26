/-
RangedIR.Proofs.Scope.Body — functions resolved again from their text.

What an instruction was resolved to is written by a tree that resolves to it again:
every operand by the name it was found under or by the literal of its constant, every
type by its expression. The names in scope are the same as before, because the written
function declares the same parameters, results and labels in the same order.
-/
import RangedIR.Proofs.Code.Debug
import RangedIR.Proofs.Number.Conversion
import RangedIR.Proofs.Scope.Types

namespace RangedIR.Scope

open Source Checked InstKind

/-! ## 1. Literals -/

/-- A number that is finite. -/
def IsFinite (x : Float) : Prop := x.isFinite = true

section

variable {function function' : Option String} {l : Literal} {ty : Ty} {c : Constant}

attribute [local simp] resolveLiteral

theorem settled_resolveLiteral : (resolveLiteral function l ty).Settled := by
  cases l with
  | int v | bool b => exact settled_some
  | float x =>
    rw [resolveLiteral]
    split_ifs
    · exact settled_some
    · exact settled_missing

/-- The literal of a constant is this constant again, at the same type. -/
theorem resolveLiteral_literal (h : resolveLiteral function l ty = clean (some c)) :
    resolveLiteral function' c.literal ty = clean (some c) := by
  cases l with
  | int v =>
    simp only [resolveLiteral, clean_inj, Option.some.injEq] at h
    subst h
    split
    · rfl
    · rfl
    · rfl
    · next hfloat hdouble hbool => simp [Constant.literal]
  | float x =>
    by_cases hty : ty.isFloating = true
    · obtain rfl : .float x = c := by simpa [hty] using h
      simp [Constant.literal, hty]
    · simp [hty] at h
  | bool b =>
    obtain rfl : .bool b = c := by simpa using h
    rfl

theorem isFinite_of_isLong {v : Int} (h : IsLong v) : IsFinite (Number.ofInt v) := by
  refine Number.isFinite_ofInt (abs_le.2 ⟨?_, ?_⟩)
  · exact h.1
  · exact h.2.trans (by norm_num)

theorem valid_literal (hl : l.Valid IsFinite) (h : resolveLiteral function l ty = clean (some c))
    (hread : ∀ x, IsFinite x → c = .float x → ReadsBack x) : c.literal.Valid ReadsBack := by
  cases l with
  | int v =>
    simp only [resolveLiteral, clean_inj, Option.some.injEq] at h
    subst h
    split at hread
    · exact hread _ (isFinite_of_isLong hl) rfl
    · exact hread _ (isFinite_of_isLong hl) rfl
    · trivial
    · exact hl
  | float x =>
    by_cases hty : ty.isFloating = true
    · obtain rfl : .float x = c := by simpa [hty] using h
      exact hread x hl rfl
    · simp [hty] at h
  | bool b =>
    obtain rfl : .bool b = c := by simpa using h
    trivial

end

/-! ## 2. Operands -/

/-- The names in scope are the names of what they stand for. -/
structure Named (m : Module) (f : Function) (n : Names) : Prop where
  values : ∀ x op, n.inner.values.find? x = some op → op.expr m f = .loc (.ofName x) ∧ op.Nameable m f
  globals : ∀ x g, n.outer.globals.find? x = some g →
    (Operand.global g).expr m f = .glob (.ofName x) ∧ (Operand.global g).Nameable m f
  labels : ∀ x b, n.inner.labels.find? x = some b →
    f.labelExpr b = .ofName x ∧ ∃ block, f.blocks[b]? = some block

/-- The second names are those of the text that writes what the first ones stand for. -/
structure Returns (m : Module) (f : Function) (n n' : Names) : Prop where
  named : Named m f n
  types : Rewrites n.outer.types n'.outer.types
  globals : n'.outer.globals = n.outer.globals
  callees : n.outer.callees ⊆ n'.outer.callees
  inner : n'.inner = n.inner

/-- The operand is written by a value that is resolved to it. -/
structure OperandBack (m : Module) (f : Function) (n : Names) (ty : Ty) (op : Operand) : Prop where
  resolves : n.value (op.expr m f) ty = clean op
  nameable : op.Nameable m f
  valid : (op.expr m f).Valid ReadsBack

/-- The type is written by an expression that is resolved to it. -/
structure TypeBack (n : Names) (ty : Ty) : Prop where
  resolves : n.type ty.expr = clean ty
  valid : ty.expr.Valid

/-- The block is written by a label that is resolved to it. -/
structure LabelBack (f : Function) (n : Names) (b : BlockId) : Prop where
  resolves : n.label (f.labelExpr b) = clean b
  exists_block : ∃ block, f.blocks[b]? = some block
  valid : IsName (f.labelExpr b).name

/-- The value and its type are written by a tree that is resolved to them. -/
structure TypedBack (m : Module) (f : Function) (n : Names) (tv : Ty × Operand) : Prop where
  resolves : n.typed (typedExpr m f tv) = clean tv
  nameable : tv.2.Nameable m f
  valid : (typedExpr m f tv).Valid ReadsBack

namespace Returns

variable {m : Module} {f : Function} {n n' : Names} (h : Returns m f n n')

attribute [local simp] Names.value Ident.ofName

include h

theorem type {t : TypeExpr} {ty : Ty} (ht : t.Valid) (hty : n.type t = clean ty) : TypeBack n' ty where
  resolves := h.types.typeOrVoid hty
  valid := (valid_expr_of_expandType ht (typeOrVoid_eq_clean.1 hty)).1

theorem value {v : ValueExpr} {ty : Ty} {op : Operand} (hv : v.Valid IsFinite) (hop : n.value v ty = clean op)
    (hread : ∀ x, IsFinite x → op = .const (.float x) → ReadsBack x) : OperandBack m f n' ty op := by
  cases v with
  | loc x =>
    cases hfind : n.inner.values.find? x.name with
    | none => simp [hfind, Names.tell] at hop
    | some found =>
      obtain rfl : found = op := by simpa [hfind] using hop
      obtain ⟨hexpr, hnameable⟩ := h.named.values _ _ hfind
      refine ⟨?_, hnameable, hexpr ▸ hv⟩
      simp [hexpr, h.inner, hfind]
  | glob g =>
    cases hfind : n.outer.globals.find? g.name with
    | none => simp [hfind, Names.tell] at hop
    | some id =>
      obtain rfl : .global id = op := by simpa [hfind] using hop
      obtain ⟨hexpr, hnameable⟩ := h.named.globals _ _ hfind
      refine ⟨?_, hnameable, hexpr ▸ hv⟩
      simp [hexpr, h.globals, hfind]
  | lit l =>
    simp only [Names.value, bind_eq_clean] at hop
    obtain ⟨o, ho, hop⟩ := hop
    obtain ⟨c, rfl⟩ := settled_resolveLiteral.exists_some ho
    obtain rfl : .const c = op := by simpa using hop
    refine ⟨?_, trivial, valid_literal hv ho fun x hx hc => hread x hx (congrArg _ hc)⟩
    simp only [Operand.expr, Names.value, resolveLiteral_literal ho, clean_bind]
    rfl
  | undef =>
    obtain rfl : .undef = op := by simpa using hop
    exact ⟨rfl, trivial, trivial⟩

theorem label {l : Ident} {b : BlockId} (hl : IsName l.name) (hb : n.label l = clean b) : LabelBack f n' b := by
  cases hfind : n.inner.labels.find? l.name with
  | none => simp [Names.label, hfind, Names.tell] at hb
  | some found =>
    obtain rfl : found = b := by simpa [Names.label, hfind] using hb
    obtain ⟨hexpr, hblock⟩ := h.named.labels _ _ hfind
    refine ⟨?_, hblock, hexpr ▸ hl⟩
    simp [hexpr, Names.label, h.inner, hfind]

theorem typed {t : Typed} {tv : Ty × Operand} (ht : t.Valid IsFinite) (htv : n.typed t = clean tv)
    (hread : ∀ x, IsFinite x → tv.2 = .const (.float x) → ReadsBack x) :
    TypedBack m f n' tv ∧ tv.1.expr.startsVoid = t.ty.startsVoid := by
  simp only [Names.typed, bind_eq_clean, pure_eq_clean] at htv
  obtain ⟨ty, hty, op, hop, rfl⟩ := htv
  have htype := h.type ht.ty hty
  have hvalue := h.value ht.value hop hread
  refine ⟨⟨?_, hvalue.nameable, ⟨htype.valid, hvalue.valid⟩⟩,
    (valid_expr_of_expandType ht.ty (typeOrVoid_eq_clean.1 hty)).2⟩
  simp only [typedExpr, Names.typed, htype.resolves, clean_bind, hvalue.resolves]
  rfl

theorem typedAll {ts : List Typed} {tvs : List (Ty × Operand)} (hts : ∀ t ∈ ts, t.Valid IsFinite)
    (htvs : each n.typed ts = clean tvs)
    (hread : ∀ x, IsFinite x → .const (.float x) ∈ tvs.map Prod.snd → ReadsBack x) :
    ∀ tv ∈ tvs, TypedBack m f n' tv := by
  refine forall_of_forall₂ (each_eq_clean.1 htvs) fun t ht tv htv heq => (h.typed (hts t ht) heq ?_).1
  exact fun x hx hconst => hread x hx (hconst ▸ List.mem_map_of_mem htv)

end Returns

/-! ## 3. Instructions -/

/-- The instruction is written by a tree that is resolved to it. -/
structure InstBack (m : Module) (f : Function) (n : Names) (k : InstKind) (ty : Ty) : Prop where
  resolves : n.instruction (k.expr m f ty) = clean (k, ty)
  nameable : k.Nameable m f
  valid : (k.expr m f ty).Valid ReadsBack

attribute [local simp] operands successors

namespace Returns

variable {m : Module} {f : Function} {n n' : Names} (h : Returns m f n n')

include h

theorem pair {t : TypeExpr} {lhs rhs : ValueExpr} {ty : Ty} {a b : Operand}
    (hvalid : t.Valid ∧ lhs.Valid IsFinite ∧ rhs.Valid IsFinite) (hty : n.type t = clean ty)
    (ha : n.value lhs ty = clean a) (hb : n.value rhs ty = clean b)
    (hread : ∀ x, IsFinite x → .const (.float x) ∈ [a, b] → ReadsBack x) :
    TypeBack n' ty ∧ OperandBack m f n' ty a ∧ OperandBack m f n' ty b :=
  ⟨h.type hvalid.1 hty, h.value hvalid.2.1 ha fun x hx hc => hread x hx (by simp [hc]),
    h.value hvalid.2.2 hb fun x hx hc => hread x hx (by simp [hc])⟩

theorem instruction {e : InstExpr} {k : InstKind} {ty : Ty} (he : e.Valid IsFinite)
    (hk : n.instruction e = clean (k, ty))
    (hread : ∀ x, IsFinite x → .const (.float x) ∈ k.operands → ReadsBack x) :
    InstBack m f n' k ty ∧ (k.expr m f ty).isValued = e.isValued ∧ (k.expr m f ty).isUnvalued = e.isUnvalued := by
  cases e
  all_goals try simp only [Names.instruction, bind_eq_clean, tellIf_eq_clean, pure_eq_clean, Prod.mk.injEq] at hk
  case binary op t lhs rhs | icmp op t lhs rhs | fcmp op t lhs rhs =>
    obtain ⟨ty, hty, a, ha, b, hb, rfl, rfl⟩ := hk
    obtain ⟨htype, hleft, hright⟩ := h.pair he hty ha hb hread
    refine ⟨⟨?_, ⟨by simp [hleft.nameable, hright.nameable], by simp, by simp⟩,
      htype.valid, hleft.valid, hright.valid⟩, rfl, rfl⟩
    simp only [expr, Names.instruction, htype.resolves, hleft.resolves, hright.resolves, clean_bind]
    rfl
  case fneg t v =>
    obtain ⟨ty, hty, a, ha, rfl, rfl⟩ := hk
    have htype := h.type he.1 hty
    have hvalue := h.value he.2 ha fun x hx hc => hread x hx (by simp [hc])
    refine ⟨⟨?_, ⟨by simp [hvalue.nameable], by simp, by simp⟩, htype.valid, hvalue.valid⟩, rfl, rfl⟩
    simp only [expr, Names.instruction, htype.resolves, hvalue.resolves, clean_bind]
    rfl
  case cast op src v dst | bitcast src v dst =>
    obtain ⟨source, hsource, a, ha, target, htarget, rfl, rfl⟩ := hk
    have hfrom := h.type he.1 hsource
    have hto := h.type he.2.2 htarget
    have hvalue := h.value he.2.1 ha fun x hx hc => hread x hx (by simp [hc])
    refine ⟨⟨?_, ⟨by simp [hvalue.nameable], by simp, by simp⟩, hfrom.valid, hvalue.valid, hto.valid⟩, rfl, rfl⟩
    simp only [expr, Names.instruction, hfrom.resolves, hto.resolves, hvalue.resolves, clean_bind]
    rfl
  case alloca t align =>
    obtain ⟨allocated, hty, rfl, rfl⟩ := hk
    have htype := h.type he.1 hty
    refine ⟨⟨?_, ⟨by simp, by simp, by simp⟩, htype.valid, he.2⟩, rfl, rfl⟩
    simp only [expr, Names.instruction, htype.resolves, clean_bind]
    rfl
  case load t ptr align =>
    obtain ⟨loaded, hty, ⟨pt, p⟩, hp, rfl, rfl⟩ := hk
    have htype := h.type he.1 hty
    have hptr := (h.typed he.2.1 hp fun x hx hc => hread x hx (by simp [← hc])).1
    refine ⟨⟨?_, ⟨by simpa using hptr.nameable, by simp, by simp⟩, htype.valid, hptr.valid, he.2.2⟩, rfl, rfl⟩
    simp only [expr, Names.instruction, htype.resolves, hptr.resolves, clean_bind]
    rfl
  case store v ptr align =>
    obtain ⟨⟨vt, a⟩, ha, ⟨pt, p⟩, hp, rfl, rfl⟩ := hk
    have hvalue := (h.typed he.1 ha fun x hx hc => hread x hx (by simp [← hc])).1
    have hptr := (h.typed he.2.1 hp fun x hx hc => hread x hx (by simp [← hc])).1
    refine ⟨⟨?_, ⟨by simpa using ⟨hvalue.nameable, hptr.nameable⟩, by simp, by simp⟩, hvalue.valid, hptr.valid,
      he.2.2⟩, rfl, rfl⟩
    simp only [expr, Names.instruction, hvalue.resolves, hptr.resolves, clean_bind]
    rfl
  case elementPtr inbounds source base indices =>
    obtain ⟨whole, hwhole, ⟨bt, b⟩, hb, tvs, htvs, hk⟩ := hk
    cases helement : elementType? whole tvs with
    | none => simp [helement, Names.tell] at hk
    | some element =>
      simp only [helement, pure_eq_clean, Prod.mk.injEq] at hk
      obtain ⟨rfl, rfl⟩ := hk
      have htype := h.type he.1 hwhole
      have hbase := (h.typed he.2.1 hb fun x hx hc => hread x hx (by simp [← hc])).1
      have hindices := h.typedAll he.2.2 htvs fun x hx hc => hread x hx (List.mem_cons_of_mem _ hc)
      refine ⟨⟨?_, ⟨?_, by simp, by simp⟩, htype.valid, hbase.valid, ?_⟩, rfl, rfl⟩
      · have heach := each_map_eq_clean fun tv htv => (hindices tv htv).resolves
        simp only [expr, Names.instruction, htype.resolves, hbase.resolves, heach, helement, clean_bind]
        rfl
      · exact List.forall_mem_cons.2 ⟨hbase.nameable, List.forall_mem_map.2 fun tv htv => (hindices tv htv).nameable⟩
      · exact List.forall_mem_map.2 fun tv htv => (hindices tv htv).valid
  case call ret callee args =>
    obtain ⟨-, hcallee, result, hresult, tvs, htvs, rfl, rfl⟩ := hk
    have htype := h.type he.1 hresult
    have hargs := h.typedAll he.2.2 htvs hread
    refine ⟨⟨?_, ⟨?_, by simp, by simp⟩, htype.valid, he.2.1, ?_⟩, rfl, rfl⟩
    · have heach := each_map_eq_clean fun tv htv => (hargs tv htv).resolves
      have hknown : (!n'.outer.callees.contains callee.name && !isDebugName callee.name) = false := by
        simp only [Bool.and_eq_false_iff, Bool.not_eq_eq_eq_not, Bool.not_false, List.contains_iff_mem] at hcallee ⊢
        exact hcallee.imp_left fun hmem => h.callees hmem
      simp only [expr, Names.instruction, Ident.ofName, hknown, htype.resolves, heach, clean_bind]
      rfl
    · exact List.forall_mem_map.2 fun tv htv => (hargs tv htv).nameable
    · exact List.forall_mem_map.2 fun tv htv => (hargs tv htv).valid
  case ret v =>
    cases v with
    | none =>
      simp only [pure_eq_clean, Prod.mk.injEq] at hk
      obtain ⟨rfl, rfl⟩ := hk
      exact ⟨⟨rfl, ⟨by simp, by simp, by simp⟩, by simp [expr, InstExpr.Valid]⟩, rfl, rfl⟩
    | some t =>
      simp only [bind_eq_clean, pure_eq_clean, Prod.mk.injEq] at hk
      obtain ⟨tv, htv, rfl, rfl⟩ := hk
      obtain ⟨hvalid, hvoid⟩ := he t rfl
      obtain ⟨hback, hstarts⟩ := h.typed hvalid htv fun x hx hc => hread x hx (by simp [← hc])
      refine ⟨⟨?_, ⟨by simpa using hback.nameable, by simp, by simp⟩, ?_⟩, rfl, rfl⟩
      · simp only [expr, Option.map_some, Names.instruction, hback.resolves, clean_bind]
        rfl
      · rintro _ ⟨⟩
        exact ⟨hback.valid, hstarts.trans hvoid⟩
  case br target =>
    obtain ⟨b, hb, rfl, rfl⟩ := hk
    have hlabel := h.label he hb
    refine ⟨⟨?_, ⟨by simp, by simpa using hlabel.exists_block, by simp⟩, hlabel.valid⟩, rfl, rfl⟩
    simp only [expr, Names.instruction, hlabel.resolves, clean_bind]
    rfl
  case condBr cond thenLabel elseLabel =>
    obtain ⟨c, hc, t, ht, e, he', rfl, rfl⟩ := hk
    have hcond := h.value he.1 hc fun x hx hc => hread x hx (by simp [hc])
    have hthen := h.label he.2.1 ht
    have helse := h.label he.2.2 he'
    refine ⟨⟨?_, ⟨by simpa using hcond.nameable, by simpa using ⟨hthen.exists_block, helse.exists_block⟩, by simp⟩,
      hcond.valid, hthen.valid, helse.valid⟩, rfl, rfl⟩
    simp only [expr, Names.instruction, hcond.resolves, hthen.resolves, helse.resolves, clean_bind]
    rfl
  case phi t incoming =>
    obtain ⟨ty, hty, vbs, hvbs, rfl, rfl⟩ := hk
    have htype := h.type he.1 hty
    have hincoming : ∀ vb ∈ vbs, OperandBack m f n' ty vb.1 ∧ LabelBack f n' vb.2 := by
      refine forall_of_forall₂ (each_eq_clean.1 hvbs) fun vl hvl vb hvb heq => ?_
      simp only [bind_eq_clean, pure_eq_clean] at heq
      obtain ⟨a, ha, b, hb, rfl⟩ := heq
      obtain ⟨hvalue, hname⟩ := he.2.2 vl hvl
      refine ⟨h.value hvalue ha fun x hx hc => hread x hx ?_, h.label hname hb⟩
      exact List.mem_map.2 ⟨(a, b), hvb, hc⟩
    refine ⟨⟨?_, ⟨?_, by simp, ?_⟩, htype.valid, ?_, ?_⟩, rfl, rfl⟩
    · simp only [expr, Names.instruction, htype.resolves, clean_bind]
      rw [each_map_eq_clean]
      · rfl
      · intro vb hvb
        simp only [(hincoming vb hvb).1.resolves, (hincoming vb hvb).2.resolves, clean_bind]
        rfl
    · exact List.forall_mem_map.2 fun vb hvb => (hincoming vb hvb).1.nameable
    · rintro _ ⟨⟩ vb hvb
      exact (hincoming vb hvb).2.exists_block
    · intro hnil
      obtain rfl := List.map_eq_nil_iff.1 hnil
      exact he.2.1 (List.forall₂_nil_right_iff.1 (each_eq_clean.1 hvbs))
    · exact List.forall_mem_map.2 fun vb hvb => ⟨(hincoming vb hvb).1.valid, (hincoming vb hvb).2.valid⟩

end Returns

theorem isLine_text_ofText {s : String} (h : IsLine s) : IsLine (DebugType.ofText s).text := by
  intro c hc
  obtain hmem | hmem := DebugType.mem_text_ofChars hc
  · exact h c hmem
  · have hwrapper : ∀ c ∈ ['*', '[', ']'] ++ DebugType.structWord, c ≠ '"' ∧ c ≠ '\n' := by
      simp [DebugType.structWord_eq]
    exact hwrapper c hmem

/-- The line of an instruction is written by a tree that is resolved to it. -/
structure LineBack (m : Module) (f : Function) (n : Names) (block : BlockId) (i : Inst) : Prop where
  resolves : n.inst block (i.tree m f) = clean i
  nameable : i.kind.Nameable m f
  valid : (i.tree m f).Valid ReadsBack

theorem name_of_inst {n : Names} {block : BlockId} {i : InstDef} {inst : Inst} (h : n.inst block i = clean inst) :
    inst.name = resultName? i := by
  simp only [Names.inst, bind_eq_clean, pure_eq_clean] at h
  obtain ⟨⟨kind, ty⟩, -, rfl⟩ := h
  rfl

theorem resultName?_tree (m : Module) (f : Function) (i : Inst) : resultName? (i.tree m f) = i.name := by
  simp [resultName?, Inst.tree, Ident.ofName, Function.comp_def]

theorem Returns.inst {m : Module} {f : Function} {n n' : Names} (h : Returns m f n n') {block : BlockId}
    {i : InstDef} {inst : Inst} (hi : i.Valid IsFinite) (hinst : n.inst block i = clean inst)
    (hread : ∀ x, IsFinite x → .const (.float x) ∈ inst.kind.operands → ReadsBack x) :
    LineBack m f n' block inst := by
  simp only [Names.inst, bind_eq_clean, pure_eq_clean] at hinst
  obtain ⟨⟨kind, ty⟩, hkind, rfl⟩ := hinst
  obtain ⟨hback, hvalued, hunvalued⟩ := h.instruction hi.kind hkind hread
  refine ⟨?_, hback.nameable, hback.valid, ?_, ?_, ?_⟩
  · simp only [Inst.tree, Names.inst, hback.resolves, clean_bind]
    cases i.result <;> cases i.dbg <;> simp [Ident.ofName, DebugType.ofText_text_ofText]
  · intro x hx
    cases hresult : i.result with
    | none => simp [Inst.tree, hresult] at hx
    | some y =>
      obtain rfl : .ofName y.name = x := by simpa [Inst.tree, hresult] using hx
      obtain ⟨hname, hisvalued⟩ := hi.result y hresult
      exact ⟨hname, hvalued.trans hisvalued⟩
  · intro hnone
    refine hunvalued.trans (hi.unvalued ?_)
    simpa [Inst.tree] using hnone
  · intro d hd
    cases hdbg : i.dbg with
    | none => simp [Inst.tree, hdbg] at hd
    | some binding =>
      obtain rfl : (binding.1, (DebugType.ofText binding.2).text) = d := by simpa [Inst.tree, hdbg] using hd
      obtain ⟨hname, htype⟩ := hi.dbg binding hdbg
      exact ⟨hname, isLine_text_ofText htype⟩

/-! ## 4. Declarations -/

theorem filterMap_range' {α : Type} (before here after : List α) :
    (List.range' before.length here.length).filterMap (fun i => (before ++ (here ++ after))[i]?) = here := by
  induction here generalizing before with
  | nil => rfl
  | cons a here ih =>
    have hrest := ih (before ++ [a])
    simp only [List.length_append, List.length_singleton, List.append_assoc, List.singleton_append] at hrest
    rw [List.length_cons, List.range'_succ, List.filterMap_cons_some (b := a) (by simp)]
    simpa using hrest

section

variable {n : Names} {block : BlockId} {id : InstId} {bs : List BlockDef} {blocks : List Block} {insts : List Inst}

theorem forall₂_of_blocks (h : n.blocks block id bs = clean (blocks, insts)) :
    List.Forall₂ (fun b block => block.label = b.label.name ∧ block.insts.length = b.insts.length) bs blocks ∧
      List.Forall₂ (fun e i => ∃ b, n.inst b e = clean i) (bs.flatMap (·.insts)) insts := by
  induction bs generalizing block id blocks insts with
  | nil =>
    obtain ⟨rfl, rfl⟩ : [] = blocks ∧ [] = insts := by simpa [Names.blocks] using h
    exact ⟨.nil, .nil⟩
  | cons b bs ih =>
    simp only [Names.blocks, bind_eq_clean, each_eq_clean, pure_eq_clean, Prod.mk.injEq] at h
    obtain ⟨here, hhere, ⟨blocks, later⟩, hlater, rfl, rfl⟩ := h
    obtain ⟨hblocks, hinsts⟩ := ih hlater
    exact ⟨.cons ⟨rfl, List.length_range'⟩ hblocks, List.rel_append (hhere.imp fun _ _ hi => ⟨block, hi⟩) hinsts⟩

/-- The blocks and instructions of a function have the names of its definition. -/
theorem names_of_blocks (h : n.blocks block id bs = clean (blocks, insts)) :
    insts.map (·.name) = (bs.flatMap (·.insts)).map resultName? ∧ blocks.map (·.label) = bs.map (·.label.name) := by
  obtain ⟨hblocks, hinsts⟩ := forall₂_of_blocks h
  exact ⟨map_eq_of_forall₂ hinsts fun _ _ hi => name_of_inst hi.choose_spec, map_eq_of_forall₂ hblocks fun _ _ h => h.1⟩

end

section

variable {function : String} {types types' : TypeDefs} {index : Nat} {ps : List (TypeExpr × Ident)}
  {values values' : Table String Operand} {params : List Param} {x : String} {op : Operand}

/-- A name that was not there before is that of a parameter. -/
theorem find?_declareParams (h : declareParams function types index ps values = clean (values', params))
    (hx : values'.find? x = some op) :
    values.find? x = some op ∨ ∃ k p, op = .arg (index + k) ∧ params[k]? = some p ∧ p.name = x := by
  induction ps generalizing index values params with
  | nil =>
    obtain ⟨rfl, rfl⟩ : values = values' ∧ [] = params := by simpa [declareParams] using h
    exact Or.inl hx
  | cons p ps ih =>
    obtain ⟨t, y⟩ := p
    simp only [declareParams, bind_eq_clean, pure_eq_clean, Prod.mk.injEq] at h
    obtain ⟨ty, -, -, -, ⟨values₁, params⟩, hrest, rfl, rfl⟩ := h
    obtain hfound | ⟨k, p, rfl, hp, hname⟩ := ih hrest
    · rw [Table.find?_insert] at hfound
      split_ifs at hfound with hy
      · obtain rfl := Option.some.inj hfound
        exact Or.inr ⟨0, _, rfl, rfl, hy⟩
      · exact Or.inl hfound
    · exact Or.inr ⟨k + 1, p, by rw [Nat.add_right_comm, Nat.add_assoc], hp, hname⟩

/-- Written parameters are declared alike. -/
theorem declareParams_tree (hdefs : Rewrites types types')
    (h : declareParams function types index ps values = clean (values', params)) :
    declareParams function types' index (params.map Param.tree) values = clean (values', params) := by
  induction ps generalizing index values params with
  | nil =>
    obtain ⟨rfl, rfl⟩ : values = values' ∧ [] = params := by simpa [declareParams] using h
    rfl
  | cons p ps ih =>
    obtain ⟨t, y⟩ := p
    simp only [declareParams, bind_eq_clean, tellIf_eq_clean, pure_eq_clean, Prod.mk.injEq] at h
    obtain ⟨ty, hty, -, hnew, ⟨values₁, params⟩, hrest, rfl, rfl⟩ := h
    simp only [List.map_cons, Param.tree, Ident.ofName, declareParams, hdefs.typeOrVoid hty, clean_bind, hnew,
      tellIf, ih hrest]
    rfl

/-- Parameters have the names and types that are written. -/
theorem forall₂_of_declareParams (h : declareParams function types index ps values = clean (values', params)) :
    List.Forall₂ (fun p param => param.name = p.2.name ∧ typeOrVoid types p.1 = clean param.ty) ps params := by
  induction ps generalizing index values params with
  | nil =>
    obtain ⟨-, rfl⟩ : values = values' ∧ [] = params := by simpa [declareParams] using h
    exact .nil
  | cons p ps ih =>
    simp only [declareParams, bind_eq_clean, pure_eq_clean, Prod.mk.injEq] at h
    obtain ⟨ty, hty, -, -, ⟨values₁, params⟩, hrest, rfl, rfl⟩ := h
    exact .cons ⟨rfl, hty⟩ (ih hrest)

theorem valid_param (hps : ∀ p ∈ ps, p.1.Valid ∧ IsName p.2.name)
    (h : declareParams function types index ps values = clean (values', params)) :
    ∀ p ∈ params, p.tree.1.Valid ∧ IsName p.tree.2.name :=
  forall_of_forall₂ (forall₂_of_declareParams h) fun p hp param _ hparam =>
    ⟨(valid_expr_of_expandType (hps p hp).1 (typeOrVoid_eq_clean.1 hparam.2)).1,
      show IsName param.name from hparam.1 ▸ (hps p hp).2⟩

/-- A name that was not there before is that of a result. -/
theorem find?_declareResults {id : InstId} {is : List InstDef}
    (h : declareResults function id is values = clean values') (hx : values'.find? x = some op) :
    values.find? x = some op ∨ ∃ k i, op = .inst (id + k) ∧ is[k]? = some i ∧ resultName? i = some x := by
  induction is generalizing id values with
  | nil =>
    obtain rfl : values = values' := by simpa [declareResults] using h
    exact Or.inl hx
  | cons i is ih =>
    have hlater : ∀ values, declareResults function (id + 1) is values = clean values' →
        values.find? x = some op ∨ ∃ k j, op = .inst (id + k) ∧ (i :: is)[k]? = some j ∧ resultName? j = some x := by
      intro values h
      refine (ih h).imp_right ?_
      rintro ⟨k, j, rfl, hj, hname⟩
      exact ⟨k + 1, j, by rw [Nat.add_right_comm, Nat.add_assoc], hj, hname⟩
    cases hresult : i.result with
    | none =>
      simp only [declareResults, hresult] at h
      exact hlater _ h
    | some y =>
      simp only [declareResults, hresult, bind_eq_clean] at h
      obtain ⟨-, -, h⟩ := h
      obtain hfound | hfound := hlater _ h
      · rw [Table.find?_insert] at hfound
        split_ifs at hfound with hy
        · obtain rfl := Option.some.inj hfound
          exact Or.inr ⟨0, i, rfl, rfl, by simp [resultName?, hresult, hy]⟩
        · exact Or.inl hfound
      · exact Or.inr hfound

/-- A name that was not there before is that of a result, or of a block. -/
theorem find?_declareBlocks {block : BlockId} {id : InstId} {bs : List BlockDef} {names names' : LocalNames}
    (h : declareBlocks function block id bs names = clean names') :
    (∀ x op, names'.values.find? x = some op → names.values.find? x = some op ∨
      ∃ k i, op = .inst (id + k) ∧ (bs.flatMap (·.insts))[k]? = some i ∧ resultName? i = some x) ∧
    (∀ x b, names'.labels.find? x = some b → names.labels.find? x = some b ∨
      ∃ k d, b = block + k ∧ bs[k]? = some d ∧ d.label.name = x) := by
  induction bs generalizing block id names with
  | nil =>
    obtain rfl : names = names' := by simpa [declareBlocks] using h
    exact ⟨fun _ _ => Or.inl, fun _ _ => Or.inl⟩
  | cons b bs ih =>
    simp only [declareBlocks, bind_eq_clean] at h
    obtain ⟨-, -, values, hvalues, h⟩ := h
    obtain ⟨hresults, hlabels⟩ := ih h
    constructor
    · intro x op hx
      obtain hfound | ⟨k, i, rfl, hi, hname⟩ := hresults x op hx
      · refine (find?_declareResults hvalues hfound).imp_right ?_
        rintro ⟨k, i, rfl, hi, hname⟩
        exact ⟨k, i, rfl, List.getElem?_append_left (List.getElem?_eq_some_iff.1 hi).1 ▸ hi, hname⟩
      · refine Or.inr ⟨b.insts.length + k, i, by rw [Nat.add_assoc], ?_, hname⟩
        rw [List.flatMap_cons, List.getElem?_append_right (Nat.le_add_right _ _), Nat.add_sub_cancel_left]
        exact hi
    · intro x label hx
      obtain hfound | ⟨k, d, rfl, hd, hname⟩ := hlabels x label hx
      · rw [Table.find?_insert] at hfound
        split_ifs at hfound with hy
        · obtain rfl := Option.some.inj hfound
          exact Or.inr ⟨0, b, rfl, rfl, hy⟩
        · exact Or.inl hfound
      · exact Or.inr ⟨k + 1, d, by rw [Nat.add_right_comm, Nat.add_assoc], hd, hname⟩

end

/-! ## 5. Functions -/

theorem Returns.blocks {m : Module} {f : Function} {n n' : Names} (h : Returns m f n n') {block : BlockId}
    {id : InstId} {bs : List BlockDef} {blocks : List Block} {insts earlier : List Inst}
    (hbs : ∀ b ∈ bs, b.Valid IsFinite) (hblocks : n.blocks block id bs = clean (blocks, insts))
    (hinsts : f.insts = earlier ++ insts) (hid : earlier.length = id)
    (hread : ∀ x, IsFinite x → ∀ i ∈ insts, .const (.float x) ∈ i.kind.operands → ReadsBack x) :
    n'.blocks block id (blocks.map (Block.tree m f)) = clean (blocks, insts) ∧
      (∀ b ∈ blocks, (b.tree m f).Valid ReadsBack) ∧
      (∀ b ∈ blocks, ∀ id ∈ b.insts, ∃ i, f.inst? id = some i ∧ i.kind.Nameable m f) ∧
      (blocks.map (Block.tree m f)).map declaredNames = bs.map declaredNames := by
  induction bs generalizing block id blocks insts earlier with
  | nil =>
    obtain ⟨rfl, rfl⟩ : [] = blocks ∧ [] = insts := by simpa [Names.blocks] using hblocks
    exact ⟨rfl, by simp, by simp, rfl⟩
  | cons b bs ih =>
    simp only [Names.blocks, bind_eq_clean, each_eq_clean, pure_eq_clean, Prod.mk.injEq] at hblocks
    obtain ⟨here, hhere, ⟨blocks, later⟩, hlater, rfl, rfl⟩ := hblocks
    obtain ⟨hb, hbs⟩ := List.forall_mem_cons.1 hbs
    have hlength := hhere.length_eq
    have hlines : ∀ i ∈ here, LineBack m f n' block i := forall_of_forall₂ hhere fun i hi inst hinst heq =>
      h.inst (hb.insts i hi) heq fun x hx => hread x hx inst (List.mem_append_left _ hinst)
    obtain ⟨hresolves, hvalid, hnameable, hnames⟩ := ih hbs hlater
      (show f.insts = (earlier ++ here) ++ later by rw [hinsts, List.append_assoc])
      (by rw [List.length_append, hid, hlength]) fun x hx i hi => hread x hx i (List.mem_append_right _ hi)
    -- the numbers of the block are those of the instructions that stand here
    have hids : (List.range' id b.insts.length).filterMap f.inst? = here := by
      have hrange := filterMap_range' earlier here later
      rw [hid, ← hlength, ← hinsts] at hrange
      exact hrange
    have htree : Block.tree m f ⟨b.label.name, List.range' id b.insts.length⟩ =
        ⟨.ofName b.label.name, here.map (Inst.tree m f)⟩ := by
      rw [Block.tree, hids]
    have heach := each_map_eq_clean fun i hi => (hlines i hi).resolves
    rw [List.map_cons, htree]
    refine ⟨?_, List.forall_mem_cons.2 ⟨?_, hvalid⟩, List.forall_mem_cons.2 ⟨?_, hnameable⟩, ?_⟩
    · simp only [Names.blocks, heach, clean_bind, List.length_map, ← hlength, hresolves]
      rfl
    · rw [htree]
      exact ⟨hb.label, List.forall_mem_map.2 fun i hi => (hlines i hi).valid⟩
    · intro j hj
      obtain ⟨hle, hlt⟩ := List.mem_range'_1.1 hj
      obtain ⟨i, hi⟩ : ∃ i, here[j - id]? = some i :=
        ⟨_, List.getElem?_eq_getElem (by omega)⟩
      refine ⟨i, ?_, (hlines i (List.mem_of_getElem? hi)).nameable⟩
      rw [Function.inst?, hinsts, List.getElem?_append_right (by omega), hid,
        List.getElem?_append_left (by omega), hi]
    · have hresults : (here.map (Inst.tree m f)).map resultName? = b.insts.map resultName? := by
        rw [List.map_map, ← map_eq_of_forall₂ hhere fun _ _ => name_of_inst]
        exact List.map_congr_left fun i _ => resultName?_tree m f i
      simp only [List.map_cons, hnames, declaredNames, hresults, Ident.ofName]

/-- The names of a module: the second are those of the text that writes what the first ones
stand for. -/
structure ModuleReturns (m : Module) (names names' : ModuleNames) : Prop where
  types : Rewrites names.types names'.types
  globals : names'.globals = names.globals
  named : ∀ x g, names.globals.find? x = some g → ∃ global, m.globals[g]? = some global ∧ global.name = x
  callees : names.callees ⊆ names'.callees

/-- The function is written by a definition that is resolved to it. -/
structure FunctionBack (m : Module) (names : ModuleNames) (f : Function) : Prop where
  resolves : resolveFunction names (f.tree m) = clean f
  nameable : f.Nameable m
  valid : (f.tree m).Valid ReadsBack

theorem named_of_declared {m : Module} {outer : ModuleNames} {f : Function} {function : String} {types : TypeDefs}
    {ps : List (TypeExpr × Ident)} {bs : List BlockDef} {values : Table String Operand} {inner : LocalNames}
    (hglobals : ∀ x g, outer.globals.find? x = some g → ∃ global, m.globals[g]? = some global ∧ global.name = x)
    (hparams : declareParams function types 0 ps .empty = clean (values, f.params))
    (hinner : declareBlocks function 0 0 bs ⟨values, .empty⟩ = clean inner)
    (hblocks : Names.blocks ⟨function, outer, inner⟩ 0 0 bs = clean (f.blocks, f.insts)) :
    Named m f ⟨function, outer, inner⟩ := by
  obtain ⟨hvalues, hlabels⟩ := find?_declareBlocks hinner
  obtain ⟨hnames, hlabelNames⟩ := names_of_blocks hblocks
  refine ⟨fun x op hx => ?_, fun x g hx => ?_, fun x b hx => ?_⟩
  · obtain hfound | ⟨k, i, rfl, hi, hname⟩ := hvalues x op hx
    · obtain hempty | ⟨k, p, rfl, hp, rfl⟩ := find?_declareParams hparams hfound
      · simp at hempty
      · rw [Nat.zero_add]
        exact ⟨by simp [Operand.expr, hp], p, hp⟩
    · have hk : (f.insts.map (·.name))[k]? = some (some x) := by
        rw [hnames, List.getElem?_map, hi, Option.map_some, hname]
      rw [List.getElem?_map] at hk
      obtain ⟨inst, hinst, hinstName⟩ := Option.map_eq_some_iff.1 hk
      rw [Nat.zero_add]
      exact ⟨by simp [Operand.expr, Function.inst?, hinst, hinstName], inst, x, hinst, hinstName⟩
  · obtain ⟨global, hglobal, rfl⟩ := hglobals x g hx
    exact ⟨by simp [Operand.expr, hglobal], global, hglobal⟩
  · obtain hempty | ⟨k, d, rfl, hd, rfl⟩ := hlabels x b hx
    · simp at hempty
    · have hk : (f.blocks.map (·.label))[k]? = some d.label.name := by
        rw [hlabelNames, List.getElem?_map, hd, Option.map_some]
      rw [List.getElem?_map] at hk
      obtain ⟨block, hblock, hlabel⟩ := Option.map_eq_some_iff.1 hk
      rw [Nat.zero_add]
      exact ⟨by simp [Function.labelExpr, hblock, hlabel], block, hblock⟩

/-- A function that was resolved is written by a definition that is resolved to it. -/
theorem ModuleReturns.function {m : Module} {names names' : ModuleNames} (h : ModuleReturns m names names')
    {d : FunctionDef} {f : Function} (hd : d.Valid IsFinite) (hf : resolveFunction names d = clean f)
    (hread : ∀ x ∈ f.floats, IsFinite x → ReadsBack x) : FunctionBack m names' f := by
  simp only [resolveFunction, bind_eq_clean, tellIf_eq_clean, pure_eq_clean] at hf
  obtain ⟨⟨values, params⟩, hparams, -, hsome, inner, hinner, ⟨blocks, insts⟩, hblocks, ret, hret, rfl⟩ := hf
  have hreturns : Returns m ⟨d.name.name, ret, params, d.range, blocks, insts⟩ ⟨d.name.name, names, inner⟩
      ⟨d.name.name, names', inner⟩ :=
    ⟨named_of_declared h.named hparams hinner hblocks, h.types, h.globals, h.callees, rfl⟩
  obtain ⟨hresolves, hvalid, hnameable, hnames⟩ :=
    hreturns.blocks hd.blocks hblocks (List.nil_append _).symm List.length_nil fun x hx i hi hop =>
      hread x (List.mem_flatMap.2 ⟨i, hi, List.mem_filterMap.2 ⟨_, hop, rfl⟩⟩) hx
  refine ⟨?_, ?_, hd.name, ?_, List.forall_mem_map.2 (valid_param hd.params hparams), hd.range,
    List.forall_mem_map.2 hvalid⟩
  · have hnonempty : (blocks.map (Block.tree m ⟨d.name.name, ret, params, d.range, blocks, insts⟩)).isEmpty =
        d.blocks.isEmpty := by
      simpa using congrArg List.isEmpty hnames
    simp only [resolveFunction, Function.tree, Ident.ofName, declareParams_tree h.types hparams, clean_bind,
      hnonempty, hsome, tellIf, declareBlocks_congr hnames, hinner, hresolves, h.types.typeOrVoid hret]
    rfl
  · intro id hid
    obtain ⟨b, hb, hid⟩ := List.mem_flatMap.1 hid
    exact hnameable b hb id hid
  · exact (valid_expr_of_expandType hd.ret (typeOrVoid_eq_clean.1 hret)).1

end RangedIR.Scope
