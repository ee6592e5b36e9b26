/-
RangedIR.Proofs.Source.Printing — printed modules as written trees.

Each part of a module has a tree that writes it: a type its expression, an operand
the name or literal that stands for it, a function its definition. Printing a part
gives the layout of its tree, as long as all operands and blocks that it refers to
have names.
-/
import RangedIR.Code.Printer
import RangedIR.Proofs.Source.Writing

namespace RangedIR

open Source Naming InstKind InstExpr

attribute [local simp] Token.spelling Token.text Function.comp_def InstKind.operands InstKind.successors

/-! ## 1. Texts of layouts -/

/-- A name that has no place. -/
def Source.Ident.ofName (name : String) : Ident := ⟨name, ⟨0, 0⟩⟩

/-- The text of a layout. -/
def layoutText (atoms : List Atom) : String := String.ofList (render atoms)

@[simp] theorem toList_layoutText (atoms : List Atom) : (layoutText atoms).toList = render atoms :=
  String.toList_ofList

/-- A text that is there and spells a layout. -/
theorem eq_some_layoutText {o : Option String} {s : String} {atoms : List Atom} (ho : o = some s)
    (h : s.toList = render atoms) : o = some (layoutText atoms) := by
  rw [ho, layoutText, ← h, String.ofList_toList]

theorem render_joined (sep : List Atom) (ls : List (List Atom)) :
    render (joined sep ls) = (render sep).intercalate (ls.map render) := by
  induction ls with
  | nil => rfl
  | cons a rest ih =>
    cases rest with
    | nil => simp [joined]
    | cons b rest =>
      rw [joined_cons_cons, render_append, render_append, ih]
      simp [List.intercalate_cons_cons]

/-- Texts with commas between them spell the layouts with commas between them. -/
theorem toList_commaSeparated {α : Type} {text : α → String} {atoms : α → List Atom} (l : List α)
    (h : ∀ a ∈ l, (text a).toList = render (atoms a)) :
    (commaSeparated (l.map text)).toList = render (joined commaBlank (l.map atoms)) := by
  have htexts : (l.map text).map String.toList = (l.map atoms).map render := by simpa using h
  rw [commaSeparated, String.toList_intercalate, render_joined, htexts]
  simp [commaBlank]

/-- Every member of a list has a text. -/
theorem mapM_of_forall {α β : Type} {f : α → Option β} {g : α → β} {l : List α} (h : ∀ a ∈ l, f a = some (g a)) :
    l.mapM f = some (l.map g) := by
  induction l with
  | nil => rfl
  | cons a l ih =>
    obtain ⟨ha, hl⟩ := List.forall_mem_cons.1 h
    simp [List.mapM_cons, ha, ih hl]

/-! ## 2. Types and constants -/

mutual

/-- The expression that writes a type. -/
def Ty.expr : Ty → TypeExpr
  | .void => .void
  | .int bits => .int bits
  | .float => .float
  | .double => .double
  | .ptr t => .ptr t.expr
  | .array n t => .array n t.expr
  | .struct (some name) _ => .named (.ofName name)
  | .struct none fields => .struct (Ty.exprs fields)

/-- The expressions that write types. -/
def Ty.exprs : List Ty → List TypeExpr
  | [] => []
  | t :: rest => t.expr :: Ty.exprs rest

end

theorem Ty.exprs_eq (ts : List Ty) : Ty.exprs ts = ts.map Ty.expr := by
  induction ts with
  | nil => rfl
  | cons t ts ih => rw [Ty.exprs, ih, List.map_cons]

/-- Structural induction on types. -/
theorem Ty.structural {P : Ty → Prop} (void : P .void) (int : ∀ bits, P (.int bits)) (float : P .float)
    (double : P .double) (ptr : ∀ t, P t → P (.ptr t)) (array : ∀ n t, P t → P (.array n t))
    (struct : ∀ name fields, (∀ t ∈ fields, P t) → P (.struct name fields)) (t : Ty) : P t :=
  @Ty.rec P (fun ts => ∀ t ∈ ts, P t) void int float double ptr array struct
    (fun _ h => by cases h) (fun _ _ ht hts => List.forall_mem_cons.2 ⟨ht, hts⟩) t

theorem toList_listText {ts : List Ty} (h : ∀ t ∈ ts, t.text.toList = render t.expr.atoms) :
    (Ty.listText ts).toList = render (joined commaBlank (ts.map fun t => t.expr.atoms)) := by
  induction ts with
  | nil => rfl
  | cons t ts ih =>
    obtain ⟨ht, hts⟩ := List.forall_mem_cons.1 h
    cases ts with
    | nil => simpa [Ty.listText, joined] using ht
    | cons u ts =>
      have hrest := ih hts
      simp only [List.map_cons] at hrest ⊢
      rw [Ty.listText, joined_cons_cons]
      · simp [ht, hrest, commaBlank]
      · simp

theorem toList_repr_natCast (n : Nat) : (Int.repr n).toList = Nat.toDigits 10 n := Nat.toList_repr

attribute [local simp] Ident.ofName

@[simp] theorem Ty.toList_text (t : Ty) : t.text.toList = render t.expr.atoms := by
  induction t using Ty.structural with
  | void | float | double => rfl
  | int bits => simp [Ty.text, Ty.expr, TypeExpr.atoms]
  | ptr t ih => simp [Ty.text, Ty.expr, TypeExpr.atoms, ih]
  | array n t ih => simp [Ty.text, Ty.expr, TypeExpr.atoms, ih, toList_repr_natCast]
  | struct name fields ih =>
    cases name with
    | some name => simp [Ty.text, Ty.expr, TypeExpr.atoms]
    | none =>
      simp [Ty.text, Ty.expr, TypeExpr.atoms_struct, fieldsAtoms, Ty.exprs_eq, toList_listText ih]

theorem toList_fieldsText (fields : List Ty) :
    (Ty.fieldsText fields).toList = render (fieldsAtoms (fields.map Ty.expr)) := by
  simp [Ty.fieldsText, fieldsAtoms, toList_listText fun t _ => t.toList_text]

/-- The literal that writes a constant. -/
def Constant.literal : Constant → Literal
  | .int v => .int v
  | .float x => .float x
  | .bool b => .bool b

theorem Constant.toList_text (c : Constant) : c.text.toList = render [.tok c.literal.token] := by
  cases c <;> simp [Constant.text, Constant.literal, Literal.token]

/-! ## 3. Operands and instructions -/

/-- The value that writes an operand of a function. -/
def Operand.expr (m : Module) (f : Function) : Operand → ValueExpr
  | .inst i => .loc (.ofName (((f.inst? i).bind (·.name)).getD ""))
  | .arg i => .loc (.ofName ((f.params[i]?.map (·.name)).getD ""))
  | .global g => .glob (.ofName ((m.globals[g]?.map (·.name)).getD ""))
  | .undef => .undef
  | .const c => .lit c.literal

/-- What the operand refers to has a name. -/
def Operand.Nameable (m : Module) (f : Function) : Operand → Prop
  | .inst i => ∃ inst name, f.inst? i = some inst ∧ inst.name = some name
  | .arg i => ∃ p, f.params[i]? = some p
  | .global g => ∃ global, m.globals[g]? = some global
  | .const _ | .undef => True

/-- The name that writes a reference to a block. -/
def Function.labelExpr (f : Function) (b : BlockId) : Ident := .ofName ((f.blocks[b]?.map (·.label)).getD "")

/-- The tree that writes a value with its type. -/
def typedExpr (m : Module) (f : Function) (tv : Ty × Operand) : Typed := ⟨tv.1.expr, tv.2.expr m f⟩

section

variable {m : Module} {f : Function}

theorem operand?_eq {op : Operand} (h : op.Nameable m f) :
    (ofFunction m f).operand? op = some (layoutText [.tok (op.expr m f).token]) := by
  cases op with
  | inst i =>
    obtain ⟨inst, name, hinst, hname⟩ := h
    refine eq_some_layoutText (s := "%" ++ name) ?_ ?_
    · simp [ofFunction, Function.valueName?, hinst, hname]
    · simp [Operand.expr, ValueExpr.token, hinst, hname]
  | arg i =>
    obtain ⟨p, hp⟩ := h
    refine eq_some_layoutText (s := "%" ++ p.name) ?_ ?_
    · simp [ofFunction, Function.valueName?, hp]
    · simp [Operand.expr, ValueExpr.token, hp]
  | global g =>
    obtain ⟨global, hglobal⟩ := h
    refine eq_some_layoutText (s := "@" ++ global.name) ?_ ?_
    · simp [ofFunction, hglobal]
    · simp [Operand.expr, ValueExpr.token, hglobal]
  | const c => exact eq_some_layoutText rfl c.toList_text
  | undef =>
    refine eq_some_layoutText rfl ?_
    simp [Operand.expr, ValueExpr.token]

theorem label?_eq {b : BlockId} (h : ∃ block, f.blocks[b]? = some block) :
    (ofFunction m f).label? b = some (layoutText [.tok (.loc (f.labelExpr b).name)]) := by
  obtain ⟨block, hblock⟩ := h
  refine eq_some_layoutText (s := "%" ++ block.label) ?_ ?_
  · simp [ofFunction, hblock]
  · simp [Function.labelExpr, hblock]

theorem typed?_eq (ty : Ty) {op : Operand} (h : op.Nameable m f) :
    (ofFunction m f).typed? (ty, op) = some (layoutText (typedExpr m f (ty, op)).atoms) := by
  refine eq_some_layoutText (congrArg _ (operand?_eq h)) ?_
  simp [typedExpr, Typed.atoms]

theorem pair?_eq (ty : Ty) {lhs rhs : Operand} (hl : lhs.Nameable m f) (hr : rhs.Nameable m f) :
    (ofFunction m f).pair? ty lhs rhs =
      some (layoutText (pairAtoms ty.expr (lhs.expr m f) (rhs.expr m f))) := by
  refine eq_some_layoutText (by simp only [pair?, operand?_eq hl, operand?_eq hr]; rfl) ?_
  simp [pairAtoms]

theorem incoming?_eq {vb : Operand × BlockId} (hv : vb.1.Nameable m f) (hb : ∃ block, f.blocks[vb.2]? = some block) :
    (ofFunction m f).incoming? vb =
      some (layoutText (incomingAtoms (vb.1.expr m f, f.labelExpr vb.2))) := by
  refine eq_some_layoutText (by simp only [incoming?, operand?_eq hv, label?_eq hb]; rfl) ?_
  simp [incomingAtoms]

@[simp] theorem toList_alignText (align : Option Nat) : (alignText align).toList = render (alignAtoms align) := by
  cases align with
  | none => rfl
  | some a => simp [alignText, alignAtoms, toList_repr_natCast]

/-- The tree that writes an instruction with a result of type `ty`. -/
def InstKind.expr (m : Module) (f : Function) (ty : Ty) : InstKind → InstExpr
  | .binary op lhs rhs => .binary op ty.expr (lhs.expr m f) (rhs.expr m f)
  | .fneg v => .fneg ty.expr (v.expr m f)
  | .cast op v src => .cast op src.expr (v.expr m f) ty.expr
  | .view v src => .bitcast src.expr (v.expr m f) ty.expr
  | .alloca t align => .alloca t.expr align
  | .load ptr pt align => .load ty.expr (typedExpr m f (pt, ptr)) align
  | .store v vt ptr pt align => .store (typedExpr m f (vt, v)) (typedExpr m f (pt, ptr)) align
  | .elementPtr inbounds source base bt indices =>
    .elementPtr inbounds source.expr (typedExpr m f (bt, base)) (indices.map (typedExpr m f))
  | .call callee args => .call ty.expr (.ofName callee) (args.map (typedExpr m f))
  | .ret v => .ret (v.map (typedExpr m f))
  | .icmp p t lhs rhs => .icmp p t.expr (lhs.expr m f) (rhs.expr m f)
  | .fcmp p t lhs rhs => .fcmp p t.expr (lhs.expr m f) (rhs.expr m f)
  | .br b => .br (f.labelExpr b)
  | .condBr c t e => .condBr (c.expr m f) (f.labelExpr t) (f.labelExpr e)
  | .phi incoming => .phi ty.expr (incoming.map fun vb => (vb.1.expr m f, f.labelExpr vb.2))

/-- Everything that an instruction refers to has a name. -/
structure InstKind.Nameable (m : Module) (f : Function) (k : InstKind) : Prop where
  operands : ∀ op ∈ k.operands, op.Nameable m f
  successors : ∀ b ∈ k.successors, ∃ block, f.blocks[b]? = some block
  incoming : ∀ l, k = .phi l → ∀ vb ∈ l, ∃ block, f.blocks[vb.2]? = some block

theorem kindText?_eq (ty : Ty) {k : InstKind} (h : k.Nameable m f) :
    (ofFunction m f).kindText? ty k = some (layoutText (k.expr m f ty).atoms) := by
  obtain ⟨hops, hblocks, hphi⟩ := h
  cases k with
  | binary op lhs rhs =>
    have hpair := pair?_eq ty (hops lhs (by simp)) (hops rhs (by simp))
    refine eq_some_layoutText (by simp only [kindText?, hpair]; rfl) ?_
    simp [expr, atoms]
  | fneg v =>
    have hv := typed?_eq ty (hops v (by simp))
    refine eq_some_layoutText (by simp only [kindText?, hv]; rfl) ?_
    simp [expr, atoms, typedExpr]
  | cast op v src | view v src =>
    have hv := typed?_eq src (hops v (by simp))
    refine eq_some_layoutText (by simp only [kindText?, hv]; rfl) ?_
    simp [expr, atoms, typedExpr]
  | alloca t align =>
    refine eq_some_layoutText rfl ?_
    simp [expr, atoms]
  | load ptr pt align =>
    have hptr := typed?_eq pt (hops ptr (by simp))
    refine eq_some_layoutText (by simp only [kindText?, hptr]; rfl) ?_
    simp [expr, atoms]
  | store v vt ptr pt align =>
    have hv := typed?_eq vt (hops v (by simp))
    have hptr := typed?_eq pt (hops ptr (by simp))
    refine eq_some_layoutText (by simp only [kindText?, hv, hptr]; rfl) ?_
    simp [expr, atoms]
  | elementPtr inbounds source base bt indices =>
    have hbase := typed?_eq bt (hops base (by simp))
    have hindices := mapM_of_forall fun tv (htv : tv ∈ indices) =>
      typed?_eq tv.1 (hops tv.2 (by simpa using Or.inr ⟨tv.1, htv⟩))
    refine eq_some_layoutText (by simp only [kindText?, hbase, hindices]; rfl) ?_
    cases inbounds <;> simp [expr, atoms, String.toList_join, List.flatMap_map]
  | call callee args =>
    have hargs := mapM_of_forall fun tv (htv : tv ∈ args) =>
      typed?_eq tv.1 (hops tv.2 (by simpa using ⟨tv.1, htv⟩))
    refine eq_some_layoutText (by simp only [kindText?, hargs]; rfl) ?_
    have hcommas := toList_commaSeparated args fun tv _ => toList_layoutText (typedExpr m f tv).atoms
    simp [expr, atoms, hcommas]
  | ret v =>
    cases v with
    | none => exact eq_some_layoutText rfl (by simp [expr, atoms])
    | some tv =>
      have htv := typed?_eq tv.1 (hops tv.2 (by simp))
      refine eq_some_layoutText (by simp only [kindText?, htv]; rfl) ?_
      simp [expr, atoms]
  | icmp p t lhs rhs | fcmp p t lhs rhs =>
    have hpair := pair?_eq t (hops lhs (by simp)) (hops rhs (by simp))
    refine eq_some_layoutText (by simp only [kindText?, hpair]; rfl) ?_
    simp [expr, atoms]
  | br b =>
    have hb := label?_eq (m := m) (hblocks b (by simp))
    refine eq_some_layoutText (by simp only [kindText?, hb]; rfl) ?_
    simp [expr, atoms]
  | condBr c t e =>
    have hc := operand?_eq (hops c (by simp))
    have ht := label?_eq (m := m) (hblocks t (by simp))
    have he := label?_eq (m := m) (hblocks e (by simp))
    refine eq_some_layoutText (by simp only [kindText?, hc, ht, he]; rfl) ?_
    simp [expr, atoms]
  | phi incoming =>
    have hincoming := mapM_of_forall fun vb (hvb : vb ∈ incoming) =>
      incoming?_eq (hops vb.1 (by simpa using ⟨vb.2, hvb⟩)) (hphi incoming rfl vb hvb)
    refine eq_some_layoutText (by simp only [kindText?, hincoming]; rfl) ?_
    have hcommas := toList_commaSeparated incoming fun vb _ =>
      toList_layoutText (incomingAtoms (vb.1.expr m f, f.labelExpr vb.2))
    simp [expr, atoms, hcommas]

/-! ## 4. Functions -/

/-- The tree that writes an instruction. -/
def Inst.tree (m : Module) (f : Function) (i : Inst) : InstDef where
  result := i.name.map .ofName
  kind := i.kind.expr m f i.ty
  dbg := i.dbg.map fun d => (d.sourceName, d.ty.text)
  span := ⟨0, 0⟩

/-- The tree that writes a block. -/
def Block.tree (m : Module) (f : Function) (b : Block) : BlockDef where
  label := .ofName b.label
  insts := (b.insts.filterMap f.inst?).map (Inst.tree m f)

/-- The tree that writes a parameter. -/
def Param.tree (p : Param) : TypeExpr × Ident := (p.ty.expr, .ofName p.name)

/-- The tree that writes a definition. -/
def Function.tree (m : Module) (f : Function) : FunctionDef where
  name := .ofName f.name
  ret := f.retTy.expr
  params := f.params.map Param.tree
  range := f.rangeType
  blocks := f.blocks.map (Block.tree m f)
  span := ⟨0, 0⟩

/-- All live instructions are there, and everything they refer to has a name. -/
def Function.Nameable (m : Module) (f : Function) : Prop :=
  ∀ id ∈ f.layout, ∃ i, f.inst? id = some i ∧ i.kind.Nameable m f

theorem instLine?_eq {i : Inst} (h : i.kind.Nameable m f) :
    (ofFunction m f).instLine? i = some (layoutText (i.tree m f).atoms) := by
  refine eq_some_layoutText (by simp only [instLine?, kindText?_eq i.ty h]; rfl) ?_
  cases hname : i.name <;> cases hdbg : i.dbg <;>
    simp [Inst.tree, InstDef.atoms, resultAtoms, debugAtoms, DebugBinding.text, hname, hdbg]

theorem blockText?_eq {b : Block} (h : ∀ id ∈ b.insts, ∃ i, f.inst? id = some i ∧ i.kind.Nameable m f) :
    f.blockText? m b = some (layoutText (b.tree m f).atoms) := by
  have hlines (ids : List InstId) (hids : ∀ id ∈ ids, ∃ i, f.inst? id = some i ∧ i.kind.Nameable m f) :
      ids.mapM (fun id => do (ofFunction m f).instLine? (← f.inst? id)) =
        some ((ids.filterMap f.inst?).map fun i => layoutText (i.tree m f).atoms) := by
    induction ids with
    | nil => rfl
    | cons id ids ih =>
      obtain ⟨⟨i, hi, hk⟩, hrest⟩ := List.forall_mem_cons.1 hids
      rw [List.mapM_cons, ih hrest, List.filterMap_cons_some hi]
      simp [hi, instLine?_eq hk]
  refine eq_some_layoutText (by simp only [Function.blockText?, hlines b.insts h]; rfl) ?_
  simp [Block.tree, BlockDef.atoms, String.toList_join, List.flatMap_map]

theorem Function.toList_header (m : Module) (f : Function) :
    f.header.toList ++ render (joined [newline] ((f.tree m).blocks.map BlockDef.atoms) ++ [.tok .rbrace, newline]) =
      render (f.tree m).atoms := by
  have hparam (p : Param) : (p.ty.text ++ " %" ++ p.name).toList = render (paramAtoms p.tree) := by
    simp [paramAtoms, Param.tree]
  have hparams := toList_commaSeparated f.params fun p _ => hparam p
  delta Function.header
  cases hrange : f.rangeType <;>
    simp [Function.tree, FunctionDef.atoms, rangeAtoms, hrange, hparams]

theorem Function.text?_eq (h : f.Nameable m) : f.text? m = some (layoutText (f.tree m).atoms) := by
  have hblocks : f.blocks.mapM (f.blockText? m) =
      some (f.blocks.map fun b => layoutText (b.tree m f).atoms) :=
    mapM_of_forall fun b hb => blockText?_eq fun id hid => h id (List.mem_flatMap.2 ⟨b, hb, hid⟩)
  refine eq_some_layoutText (by simp only [Function.text?, hblocks]; rfl) ?_
  rw [← f.toList_header m]
  simp [render_joined, Function.tree, String.toList_intercalate]

end

/-! ## 5. Modules -/

/-- The tree that writes the first value of a global. -/
def GlobalInit.expr : GlobalInit → GlobalInitExpr
  | .scalar c => .scalar c.literal
  | .array cs => .array (cs.map Constant.literal)

/-- The tree that writes a named type. -/
def NamedType.tree (t : NamedType) : TypeDef := ⟨.ofName t.name, t.fields.map Ty.expr⟩

/-- The tree that writes a global. -/
def Global.tree (g : Global) : GlobalDef := ⟨.ofName g.name, g.isConstant, g.ty.expr, g.init.expr⟩

/-- The tree that writes a declaration. -/
def Declaration.tree (d : Declaration) : DeclareDef := ⟨.ofName d.name, d.retTy.expr, d.params.map Ty.expr⟩

/-- The trees that write the parts of a module, each function as a part of its own. -/
def Module.parts (m : Module) : List (List Item) :=
  m.dataLayout.toList.map .dataLayout :: m.types.map (.typeDef ·.tree) :: m.globals.map (.globalDef ·.tree) ::
    m.declarations.map (.declare ·.tree) :: m.functions.map fun f => [.define (f.tree m)]

/-- The trees that write a module. -/
def Module.items (m : Module) : List Item := m.parts.flatten

theorem NamedType.toList_text (t : NamedType) : t.text.toList = render (Item.typeDef t.tree).atoms := by
  simp [NamedType.text, NamedType.tree, Item.atoms, toList_fieldsText]

theorem GlobalInit.toList_text (i : GlobalInit) : i.text.toList = render i.expr.atoms := by
  cases i with
  | scalar c => exact c.toList_text
  | array cs =>
    have hconstants := toList_commaSeparated cs fun c _ => c.toList_text
    simp [GlobalInit.text, GlobalInit.expr, GlobalInitExpr.atoms, hconstants]

theorem Global.toList_text (g : Global) : g.text.toList = render (Item.globalDef g.tree).atoms := by
  cases hconstant : g.isConstant <;>
    simp [Global.text, Global.tree, Item.atoms, hconstant, GlobalInit.toList_text]

theorem Declaration.toList_text (d : Declaration) : d.text.toList = render (Item.declare d.tree).atoms := by
  have hparams := toList_commaSeparated d.params fun t _ => t.toList_text
  delta Declaration.text
  simp [Declaration.tree, Item.atoms, hparams]

/-- The texts of items, one behind the other. -/
theorem join_eq_layoutText {α : Type} {text : α → String} {item : α → Item} (l : List α)
    (h : ∀ a, (text a).toList = render (item a).atoms) :
    String.join (l.map text) = layoutText ((l.map item).flatMap Item.atoms) := by
  refine String.toList_inj.1 ?_
  simp [String.toList_join, List.flatMap_map, h]

theorem isEmpty_layoutText (items : List Item) : (layoutText (items.flatMap Item.atoms)).isEmpty = items.isEmpty := by
  cases items with
  | nil => rfl
  | cons i items =>
    have hne : render i.atoms ≠ [] := by
      cases i <;> simp [Item.atoms, FunctionDef.atoms]
    have htext : layoutText ((i :: items).flatMap Item.atoms) ≠ "" := by
      intro h
      have := congrArg String.toList h
      simp [hne] at this
    simpa using htext

/-- A module prints the trees of its parts, without those that are empty. -/
theorem Module.text?_eq {m : Module} (h : ∀ f ∈ m.functions, f.Nameable m) :
    m.text? = some (layoutText (sectionAtoms (m.parts.filter (! ·.isEmpty)))) := by
  have hfunctions : m.functions.mapM (·.text? m) = some (m.functions.map fun f => layoutText (f.tree m).atoms) :=
    mapM_of_forall fun f hf => Function.text?_eq (h f hf)
  let texts : List String := m.parts.map fun items => layoutText (items.flatMap Item.atoms)
  have htexts : m.text? = some (String.intercalate "\n" (texts.filter (! ·.isEmpty))) := by
    have hlayout : layoutText ((m.dataLayout.toList.map Item.dataLayout).flatMap Item.atoms) =
        (m.dataLayout.map fun dl => "target datalayout = \"" ++ dl ++ "\"\n").getD "" := by
      refine String.toList_inj.1 ?_
      cases m.dataLayout <;> simp [Item.atoms]
    simp only [Module.text?, hfunctions, join_eq_layoutText m.types NamedType.toList_text,
      join_eq_layoutText m.globals Global.toList_text, join_eq_layoutText m.declarations Declaration.toList_text]
    simp only [texts, Module.parts, List.map_cons, List.map_map, hlayout]
    cases m.dataLayout <;> simp [Item.atoms]
  refine eq_some_layoutText htexts ?_
  rw [String.toList_intercalate, sectionAtoms, render_joined]
  simp only [texts, List.filter_map, List.map_map, Function.comp_def, isEmpty_layoutText]
  simp

/-! ## 6. The numbers in a module -/

def Constant.float? : Constant → Option Float
  | .float x => some x
  | _ => none

def Operand.float? : Operand → Option Float
  | .const c => c.float?
  | _ => none

def GlobalInit.floats : GlobalInit → List Float
  | .scalar c => c.float?.toList
  | .array cs => cs.filterMap Constant.float?

def Function.floats (f : Function) : List Float := f.insts.flatMap fun i => i.kind.operands.filterMap Operand.float?

/-- The numbers that are written in a module. -/
def Module.floats (m : Module) : List Float :=
  m.globals.flatMap (·.init.floats) ++ m.functions.flatMap Function.floats

end RangedIR
