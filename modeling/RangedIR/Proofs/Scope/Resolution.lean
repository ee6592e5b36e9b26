/-
RangedIR.Proofs.Scope.Resolution — what the names of a resolved module stand for.

Results and labels are numbered in one walk over a function and its instructions are made in
another one. In a module that was resolved both agree: every operand is the number of what
carries the written name, every branch leads to the block that carries the written label, and
instructions are numbered in the order in which the blocks list them.
-/
import RangedIR.Proofs.Scope.Acceptance

namespace RangedIR

open Source Scope Scope.Checked

/-! ## 1. Written names -/

/-- The blocks that an instruction names, in the order in which they are written. -/
def InstKind.targets : InstKind → List BlockId
  | br b => [b]
  | condBr _ t e => [t, e]
  | phi incoming => incoming.map Prod.snd
  | _ => []

/-- A written value stands for an operand: a name for what carries it. -/
inductive Denotes (m : Module) (f : Function) : ValueExpr → Operand → Prop
  | result {x : Ident} {id : InstId} {i : Inst} :
    f.inst? id = some i → i.name = some x.name → Denotes m f (.loc x) (.inst id)
  | param {x : Ident} {k : Nat} {p : Param} : f.params[k]? = some p → p.name = x.name → Denotes m f (.loc x) (.arg k)
  | global {x : Ident} {k : GlobalId} {g : Global} :
    m.globals[k]? = some g → g.name = x.name → Denotes m f (.glob x) (.global k)
  | undef : Denotes m f .undef .undef
  | literal {l : Literal} {ty : Ty} {c : Constant} :
    resolveLiteral none l ty = clean (some c) → Denotes m f (.lit l) (.const c)

/-- A written label stands for the block that carries it. -/
def LabelDenotes (f : Function) (l : Ident) (b : BlockId) : Prop := ∃ block, f.blocks[b]? = some block ∧ block.label = l.name

/-- What the operand refers to is there. -/
def Operand.Exists (m : Module) (f : Function) : Operand → Prop
  | inst id => id < f.insts.length
  | arg k => k < f.params.length
  | global g => g < m.globals.length
  | const _ | undef => True

theorem Denotes.exists {m : Module} {f : Function} {v : ValueExpr} {op : Operand} (h : Denotes m f v op) :
    op.Exists m f := by
  cases h with
  | result hi _ | param hi _ | global hi _ => exact (List.getElem?_eq_some_iff.1 hi).1
  | undef => trivial
  | literal _ => trivial

/-! ## 2. Resolved functions -/

/-- An instruction has the written name, operands and labels. -/
structure InstDenotes (m : Module) (f : Function) (e : InstDef) (i : Inst) : Prop where
  name : i.name = e.result.map (·.name)
  operands : List.Forall₂ (Denotes m f) (e.kind.uses.map (·.value)) i.kind.operands
  targets : List.Forall₂ (LabelDenotes f) e.kind.labels i.kind.targets

/-- A function of a module is what a definition stands for. -/
structure FunctionDenotes (m : Module) (d : FunctionDef) (f : Function) : Prop where
  name : f.name = d.name.name
  params : f.params.map (·.name) = d.params.map (·.2.name)
  /-- Blocks are those that are written, each with as many instructions. -/
  blocks : List.Forall₂ (fun b block => block.label = b.label.name ∧ block.insts.length = b.insts.length) d.blocks f.blocks
  /-- Instructions are those that are written, in this order. -/
  insts : List.Forall₂ (InstDenotes m f) d.insts f.insts
  operands : ∀ i ∈ f.insts, ∀ op ∈ i.kind.operands, op.Exists m f
  /-- Blocks list every number once and in order. -/
  layout : f.layout = List.range f.insts.length
  /-- The block that lists an instruction is the one that the instruction names. -/
  listed : ∀ id i, f.inst? id = some i → ∀ b, (∃ block, f.blocks[b]? = some block ∧ id ∈ block.insts) ↔ b = i.block
  live : ∀ i ∈ f.insts, i.erased = false
  distinctLabels : (f.blocks.map (·.label)).Nodup
  distinctValues : (f.params.map (·.name) ++ f.insts.filterMap (·.name)).Nodup

/-! ## 3. Operands and labels -/

namespace Scope

/-- Which constant a literal is does not depend on where a fault would be told. -/
theorem resolveLiteral_of_function {function function' : Option String} {l : Literal} {ty : Ty} {c : Constant}
    (h : resolveLiteral function l ty = clean (some c)) : resolveLiteral function' l ty = clean (some c) := by
  cases l with
  | int v => exact h
  | bool b => exact h
  | float x => cases hty : ty.isFloating <;> simp_all [resolveLiteral]

section

variable {m : Module} {f : Function} {n : Names} (h : Named m f n)

include h

theorem Named.denotes {t : Typed} {tv : Ty × Operand} (ht : n.typed t = clean tv) : Denotes m f t.value tv.2 := by
  simp only [Names.typed, bind_eq_clean, pure_eq_clean] at ht
  obtain ⟨ty, -, op, hop, rfl⟩ := ht
  obtain ⟨t, v⟩ := t
  cases v with
  | loc x =>
    cases hx : n.inner.values.find? x.name with
    | none => simp [Names.value, hx, Names.tell] at hop
    | some op' =>
      obtain rfl : op' = op := by simpa [Names.value, hx] using hop
      obtain ⟨hexpr, hnameable⟩ := h.values _ _ hx
      cases op' with
      | inst id =>
        obtain ⟨i, name, hi, hname⟩ := hnameable
        refine .result hi ?_
        simpa [Operand.expr, hi, hname, Ident.ofName] using hexpr
      | arg k =>
        obtain ⟨p, hp⟩ := hnameable
        refine .param hp ?_
        simpa [Operand.expr, hp, Ident.ofName] using hexpr
      | global g => cases hexpr
      | const c => cases hexpr
      | undef => cases hexpr
  | glob g =>
    cases hg : n.outer.globals.find? g.name with
    | none => simp [Names.value, hg, Names.tell] at hop
    | some id =>
      obtain rfl : .global id = op := by simpa [Names.value, hg] using hop
      obtain ⟨hexpr, global, hglobal⟩ := h.globals _ _ hg
      refine .global hglobal ?_
      simpa [Operand.expr, hglobal, Ident.ofName] using hexpr
  | lit l =>
    simp only [Names.value, bind_eq_clean] at hop
    obtain ⟨o, ho, hop⟩ := hop
    obtain ⟨c, rfl⟩ := settled_resolveLiteral.exists_some ho
    obtain rfl := pure_eq_clean.1 hop
    exact .literal (resolveLiteral_of_function ho)
  | undef =>
    obtain rfl := clean_inj.1 hop
    exact .undef

theorem Named.labelDenotes {l : Ident} {b : BlockId} (hl : n.label l = clean b) : LabelDenotes f l b := by
  cases hb : n.inner.labels.find? l.name with
  | none => simp [Names.label, hb, Names.tell] at hl
  | some b' =>
    obtain rfl : b' = b := by simpa [Names.label, hb] using hl
    obtain ⟨hexpr, block, hblock⟩ := h.labels _ _ hb
    exact ⟨block, hblock, by simpa [Function.labelExpr, hblock, Ident.ofName] using hexpr⟩

end

/-! ## 4. Instructions -/

section

variable {n : Names} {t : TypeExpr} {ty : Ty}

theorem typed_eq_clean {v : ValueExpr} {op : Operand} (ht : n.type t = clean ty) (hv : n.value v ty = clean op) :
    n.typed ⟨t, v⟩ = clean (ty, op) := by
  simp only [Names.typed, ht, clean_bind, hv]
  rfl

/-- Values with types are resolved to operands one by one. -/
theorem forall₂_typed {ts : List Typed} {tvs : List (Ty × Operand)}
    (h : List.Forall₂ (fun t tv => n.typed t = clean tv) ts tvs) :
    List.Forall₂ (fun t op => ∃ ty, n.typed t = clean (ty, op)) ts (tvs.map Prod.snd) :=
  List.forall₂_map_right_iff.2 (h.imp fun _ tv ht => ⟨tv.1, ht⟩)

/-- An instruction works on the values that it was written with, and names the labels. -/
theorem forall₂_of_instruction {e : InstExpr} {k : InstKind} (h : n.instruction e = clean (k, ty)) :
    List.Forall₂ (fun t op => ∃ ty, n.typed t = clean (ty, op)) e.uses k.operands ∧
      List.Forall₂ (fun l b => n.label l = clean b) e.labels k.targets := by
  cases e
  all_goals try simp only [Names.instruction, bind_eq_clean, each_eq_clean, pure_eq_clean] at h
  case binary op t lhs rhs | icmp op t lhs rhs | fcmp op t lhs rhs =>
    obtain ⟨u, hu, a, ha, b, hb, ⟨⟩⟩ := h
    exact ⟨.cons ⟨_, typed_eq_clean hu ha⟩ (.cons ⟨_, typed_eq_clean hu hb⟩ .nil), .nil⟩
  case fneg t v =>
    obtain ⟨u, hu, a, ha, ⟨⟩⟩ := h
    exact ⟨.cons ⟨_, typed_eq_clean hu ha⟩ .nil, .nil⟩
  case cast op src v dst | bitcast src v dst =>
    obtain ⟨u, hu, a, ha, _, -, ⟨⟩⟩ := h
    exact ⟨.cons ⟨_, typed_eq_clean hu ha⟩ .nil, .nil⟩
  case alloca t align =>
    obtain ⟨u, -, ⟨⟩⟩ := h
    exact ⟨.nil, .nil⟩
  case load t ptr align =>
    obtain ⟨u, -, p, hp, ⟨⟩⟩ := h
    exact ⟨.cons ⟨_, hp⟩ .nil, .nil⟩
  case store v ptr align =>
    obtain ⟨v, hv, p, hp, ⟨⟩⟩ := h
    exact ⟨.cons ⟨_, hv⟩ (.cons ⟨_, hp⟩ .nil), .nil⟩
  case elementPtr inbounds source base indices =>
    obtain ⟨u, -, b, hb, tvs, htvs, h⟩ := h
    cases hpath : elementType? u tvs with
    | none => simp [hpath, Names.tell] at h
    | some t =>
      simp only [hpath, pure_eq_clean] at h
      obtain ⟨⟩ := h
      exact ⟨.cons ⟨_, hb⟩ (forall₂_typed htvs), .nil⟩
  case call ret callee args =>
    obtain ⟨-, -, u, -, tvs, htvs, ⟨⟩⟩ := h
    exact ⟨forall₂_typed htvs, .nil⟩
  case ret v =>
    cases v with
    | none =>
      obtain ⟨⟩ := pure_eq_clean.1 h
      exact ⟨.nil, .nil⟩
    | some v =>
      simp only [bind_eq_clean, pure_eq_clean] at h
      obtain ⟨tv, htv, ⟨⟩⟩ := h
      exact ⟨.cons ⟨_, htv⟩ .nil, .nil⟩
  case br target =>
    obtain ⟨b, hb, ⟨⟩⟩ := h
    exact ⟨.nil, .cons hb .nil⟩
  case condBr c thenLabel elseLabel =>
    obtain ⟨v, hv, t, ht, e, he, ⟨⟩⟩ := h
    exact ⟨.cons ⟨_, @typed_eq_clean n (.int 1) _ _ _ rfl hv⟩ .nil, .cons ht (.cons he .nil)⟩
  case phi t incoming =>
    obtain ⟨u, hu, l, hl, ⟨⟩⟩ := h
    constructor
    · refine List.forall₂_map_left_iff.2 (List.forall₂_map_right_iff.2 (hl.imp ?_))
      rintro ⟨v, x⟩ _ ⟨op, hop, b, hb, rfl⟩
      exact ⟨_, typed_eq_clean hu hop⟩
    · refine List.forall₂_map_left_iff.2 (List.forall₂_map_right_iff.2 (hl.imp ?_))
      rintro ⟨v, x⟩ _ ⟨op, hop, b, hb, rfl⟩
      exact hb

end

/-- What is made of a written instruction in a block. -/
theorem inst_eq_clean {n : Names} {block : BlockId} {e : InstDef} {i : Inst} (h : n.inst block e = clean i) :
    i.block = block ∧ i.erased = false ∧ n.instruction e.kind = clean (i.kind, i.ty) := by
  simp only [Names.inst, bind_eq_clean, pure_eq_clean] at h
  obtain ⟨⟨kind, ty⟩, hkind, rfl⟩ := h
  exact ⟨rfl, rfl, hkind⟩

theorem Named.instDenotes {m : Module} {f : Function} {n : Names} (h : Named m f n) {block : BlockId} {e : InstDef}
    {i : Inst} (hi : n.inst block e = clean i) : InstDenotes m f e i := by
  obtain ⟨-, -, hkind⟩ := inst_eq_clean hi
  obtain ⟨huses, hlabels⟩ := forall₂_of_instruction hkind
  refine ⟨name_of_inst hi, List.forall₂_map_left_iff.2 (huses.imp ?_), hlabels.imp fun _ _ => h.labelDenotes⟩
  rintro t op ⟨ty, ht⟩
  exact h.denotes ht

/-! ## 5. Numbers -/

section

variable {n : Names} {block : BlockId} {id : InstId} {bs : List BlockDef} {blocks : List Block} {insts : List Inst}

/-- Numbers are given in the order of the blocks. -/
theorem layout_of_blocks (h : n.blocks block id bs = clean (blocks, insts)) :
    blocks.flatMap (·.insts) = List.range' id insts.length := by
  induction bs generalizing block id blocks insts with
  | nil =>
    obtain ⟨rfl, rfl⟩ : [] = blocks ∧ [] = insts := by simpa [Names.blocks] using h
    rfl
  | cons b bs ih =>
    simp only [Names.blocks, bind_eq_clean, each_eq_clean, pure_eq_clean, Prod.mk.injEq] at h
    obtain ⟨here, hhere, ⟨blocks, later⟩, hlater, rfl, rfl⟩ := h
    rw [List.flatMap_cons, ih hlater, List.length_append, hhere.length_eq, List.range'_append_1]

/-- An instruction is listed in the block that it was made for, and in no other one. -/
theorem listed_of_blocks (h : n.blocks block id bs = clean (blocks, insts)) {j : Nat} {i : Inst}
    (hi : insts[j]? = some i) :
    block ≤ i.block ∧ ∀ k, (∃ b, blocks[k]? = some b ∧ id + j ∈ b.insts) ↔ block + k = i.block := by
  induction bs generalizing block id blocks insts j with
  | nil =>
    obtain ⟨-, rfl⟩ : [] = blocks ∧ [] = insts := by simpa [Names.blocks] using h
    cases hi
  | cons b bs ih =>
    simp only [Names.blocks, bind_eq_clean, each_eq_clean, pure_eq_clean, Prod.mk.injEq] at h
    obtain ⟨here, hhere, ⟨blocks, later⟩, hlater, rfl, rfl⟩ := h
    have hlength := hhere.length_eq
    by_cases hj : j < here.length
    · rw [List.getElem?_append_left hj] at hi
      have hblock : ∀ i ∈ here, i.block = block := forall_of_forall₂ hhere fun _ _ _ _ hi => (inst_eq_clean hi).1
      obtain rfl := hblock i (List.mem_of_getElem? hi)
      refine ⟨Nat.le_refl _, fun k => ?_⟩
      cases k with
      | zero =>
        refine iff_of_true ⟨_, rfl, List.mem_range'_1.2 ⟨Nat.le_add_right _ _, Nat.add_lt_add_left ?_ id⟩⟩ rfl
        rwa [hlength]
      | succ k =>
        refine iff_of_false ?_ (Nat.ne_of_gt (Nat.lt_add_of_pos_right k.succ_pos))
        rintro ⟨c, hc, hmem⟩
        have hlayout : id + j ∈ blocks.flatMap (·.insts) :=
          List.mem_flatMap.2 ⟨c, List.mem_of_getElem? (i := k) hc, hmem⟩
        rw [layout_of_blocks hlater, List.mem_range'_1] at hlayout
        exact absurd (Nat.add_le_add_iff_left.1 hlayout.1) (by rw [hlength]; exact not_le.2 hj)
    · rw [List.getElem?_append_right (not_lt.1 hj)] at hi
      obtain ⟨hle, hlisted⟩ := ih hlater hi
      refine ⟨Nat.le_of_succ_le hle, fun k => ?_⟩
      cases k with
      | zero =>
        refine iff_of_false ?_ (Nat.ne_of_lt hle)
        rintro ⟨_, ⟨⟩, hmem⟩
        have hlt := Nat.add_lt_add_iff_left.1 (List.mem_range'_1.1 hmem).2
        exact hj (by rwa [← hlength])
      | succ k =>
        have hnumber : id + b.insts.length + (j - here.length) = id + j := by
          rw [hlength, Nat.add_assoc, Nat.add_sub_cancel' (not_lt.1 hj)]
        have hk := hlisted k
        rwa [hnumber, Nat.add_right_comm] at hk

end

/-! ## 6. Functions -/

/-- A definition that is resolved without an issue stands for its function. -/
theorem functionDenotes_of_resolveFunction {m : Module} {names : ModuleNames} {d : FunctionDef} {f : Function}
    (hglobals : ∀ x g, names.globals.find? x = some g → ∃ global, m.globals[g]? = some global ∧ global.name = x)
    (h : resolveFunction names d = clean f) : FunctionDenotes m d f := by
  simp only [resolveFunction, bind_eq_clean, pure_eq_clean] at h
  obtain ⟨⟨values, params⟩, hparams, -, -, inner, hinner, ⟨blocks, insts⟩, hblocks, ret, -, rfl⟩ := h
  have hnamed := @named_of_declared m names ⟨d.name.name, ret, params, d.range, blocks, insts⟩ _ _ _ _ _ _
    hglobals hparams hinner hblocks
  obtain ⟨hwritten, hinsts⟩ := forall₂_of_blocks hblocks
  have hdenotes := hinsts.imp fun e i hi => hnamed.instDenotes hi.choose_spec
  obtain ⟨hnames, hlabels⟩ := names_of_blocks hblocks
  have hparamNames := map_eq_of_forall₂ (forall₂_of_declareParams hparams) fun _ _ h => h.1
  -- no issue was told, so the names that were entered are distinct
  have hvalues := @adds_declareParams d.name.name names.types .empty 0 d.params
  rw [hparams] at hvalues
  have hfreshParams := (isClean_declareParams.1 (isClean_iff.2 ⟨_, hparams⟩)).2
  obtain ⟨hfreshResults, hfreshLabels⟩ := isClean_declareBlocks.1 (isClean_iff.2 ⟨_, hinner⟩)
  have hresults : insts.filterMap (·.name) = d.insts.filterMap resultName? := by
    simpa [List.filterMap_map, Function.comp_def, FunctionDef.insts] using congrArg (List.filterMap id) hnames
  exact {
    name := rfl
    params := hparamNames
    blocks := hwritten
    insts := hdenotes
    operands := forall_of_forall₂ hdenotes fun e _ i _ hi =>
      forall_of_forall₂ hi.operands fun v _ op _ hop => hop.exists
    layout := (layout_of_blocks hblocks).trans List.range_eq_range'.symm
    listed := fun id i hi b => by simpa using (listed_of_blocks hblocks hi).2 b
    live := forall_of_forall₂ hinsts fun e _ i _ hi => (inst_eq_clean hi.choose_spec).2.1
    distinctLabels := hlabels ▸ fresh_empty.1 hfreshLabels
    distinctValues := by
      rw [hparamNames, hresults]
      exact fresh_empty.1 (hvalues.fresh_append.2 ⟨hfreshParams, hfreshResults⟩) }

/-! ## 7. Modules -/

def declareName? : Item → Option String
  | .declare d => some d.name.name
  | _ => none

def define? : Item → Option FunctionDef
  | .define d => some d
  | _ => none

section

variable {names : ModuleNames} {items : List Item} {es : List Entity}

/-- The declarations of entities have the names of their items, in this order. -/
theorem declarations_of_resolves (h : List.Forall₂ (Resolves names) items es) :
    (es.filterMap Entity.declaration?).map (·.name) = items.filterMap declareName? := by
  induction h with
  | nil => rfl
  | cons he _ ih =>
    cases he with
    | declaration hret hparams => exact congrArg _ ih
    | layout s | type hfields | global hg | function hf => exact ih

/-- The functions of entities are those of their items, in this order. -/
theorem functions_of_resolves (h : List.Forall₂ (Resolves names) items es) :
    List.Forall₂ (fun d f => resolveFunction names d = clean f) (items.filterMap define?)
      (es.filterMap Entity.function?) := by
  induction h with
  | nil => exact .nil
  | cons he _ ih =>
    cases he with
    | function hf => exact .cons hf ih
    | layout s | type hfields | global hg | declaration hret hparams => exact ih

end

end Scope

/-- A module is what items stand for. -/
structure ModuleDenotes (items : List Item) (m : Module) : Prop where
  types : m.types.map (·.name) = (items.filterMap typeDef?).map (·.name.name)
  globals : m.globals.map (·.name) = items.filterMap globalName?
  declarations : m.declarations.map (·.name) = items.filterMap declareName?
  functions : List.Forall₂ (FunctionDenotes m) (items.filterMap define?) m.functions
  distinctGlobals : (m.globals.map (·.name)).Nodup

theorem moduleDenotes_of_checkItems {items : List Item} {m : Module} (h : checkItems items = clean m) :
    ModuleDenotes items m := by
  obtain ⟨hdistinct, es, hes, rfl⟩ := checkItems_eq_clean.1 h
  have hglobals := globals_of_resolves hes
  have hnamed := (moduleReturns_of_resolves hes).named
  rw [moduleOf_eq] at hnamed ⊢
  exact {
    types := map_eq_of_forall₂ (types_of_resolves hes) fun _ _ ht => ht.1
    globals := hglobals.symm
    declarations := declarations_of_resolves hes
    functions := (functions_of_resolves hes).imp fun d f hf => functionDenotes_of_resolveFunction hnamed hf
    distinctGlobals := hglobals ▸ (distinct_ofItems.1 hdistinct).2.1 }

/-- **Resolution.** A module that is resolved from items is what they stand for: entities stand
in the order of the items, operands and labels are what carries the written name, and the
instructions of a function are numbered as its blocks list them. -/
theorem resolve_denotes {items : List Item} {m : Module} (h : resolve items = .ok m) : ModuleDenotes items m :=
  moduleDenotes_of_checkItems (resolve_eq_ok.1 h)

/-- A loop that refers to a result and to a global that stand behind it. -/
def counting : List Item := [
  .define ⟨.ofName "count", .void, [(.int 32, .ofName "n")], none, [
    ⟨.ofName "entry", [⟨none, .br (.ofName "loop"), none, ⟨0, 0⟩⟩]⟩,
    ⟨.ofName "loop", [
      ⟨some (.ofName "i"), .phi (.int 32) [(.loc (.ofName "n"), .ofName "entry"), (.loc (.ofName "j"), .ofName "loop")],
        none, ⟨0, 0⟩⟩,
      ⟨some (.ofName "j"), .binary .add (.int 32) (.loc (.ofName "i")) (.lit (.int 1)), none, ⟨0, 0⟩⟩,
      ⟨none, .store ⟨.int 32, .loc (.ofName "j")⟩ ⟨.ptr (.int 32), .glob (.ofName "total")⟩ none, none, ⟨0, 0⟩⟩,
      ⟨none, .br (.ofName "loop"), none, ⟨0, 0⟩⟩]⟩], ⟨0, 0⟩⟩,
  .globalDef ⟨.ofName "total", false, .int 32, .scalar (.int 0)⟩]

theorem resolve_denotes_counting : ∃ m, resolve counting = .ok m ∧ ModuleDenotes counting m :=
  ⟨_, rfl, resolve_denotes rfl⟩

end RangedIR
