/-
RangedIR.Proofs.Scope.Module — modules resolved again from their text.

A module is resolved in two passes over its items. The first enters names, and is clean
if no name is entered twice; the second makes one entity of each item, and adds it to the
module. The items that a module writes stand in another order, kind by kind, but each kind
keeps its order, so the names stand for the same entities and each item makes the entity
that it was written for.
-/
import RangedIR.Proofs.Scope.Body

namespace RangedIR.Scope

open Source Checked ModuleNames

/-! ## 1. Names -/

namespace ModuleNames

/-- The names with that of an item behind the others. -/
def enter (names : ModuleNames) : Item → ModuleNames
  | .dataLayout _ => names
  | .typeDef t => { names with types := ⟨names.types.entries ++ [(t.name.name, t.fields)]⟩ }
  | .globalDef g => { names with globals := ⟨names.globals.entries ++ [(g.name.name, names.globals.size)]⟩ }
  | .declare d => { names with callees := d.name.name :: names.callees }
  | .define f => { names with callees := f.name.name :: names.callees }

/-- No name is there twice. -/
structure Distinct (names : ModuleNames) : Prop where
  types : names.types.keys.Nodup
  globals : names.globals.keys.Nodup
  callees : names.callees.Nodup

/-- The names of items. -/
def ofItems (items : List Item) : ModuleNames := items.foldl enter ⟨.empty, .empty, []⟩

variable {names names' : ModuleNames} {i : Item} {items : List Item}

theorem Distinct.of_enter (h : (names.enter i).Distinct) : names.Distinct := by
  obtain ⟨htypes, hglobals, hcallees⟩ := h
  cases i with
  | dataLayout s => exact ⟨htypes, hglobals, hcallees⟩
  | typeDef t =>
    simp only [enter, Table.keys, List.map_append] at htypes
    exact ⟨htypes.of_append_left, hglobals, hcallees⟩
  | globalDef g =>
    simp only [enter, Table.keys, List.map_append] at hglobals
    exact ⟨htypes, hglobals.of_append_left, hcallees⟩
  | declare d | define f => exact ⟨htypes, hglobals, hcallees.of_cons⟩

theorem Distinct.of_foldl (h : (items.foldl enter names).Distinct) : names.Distinct := by
  induction items generalizing names with
  | nil => exact h
  | cons i items ih => exact (ih h).of_enter

/-- A step that is clean where a test fails. -/
theorem tellIf_pure_eq_clean {α : Type} {test : Bool} {function : Option String} {fault : Fault} {x e y : α}
    {D : Prop} (hD : D ↔ test = false) (hx : test = false → x = e) :
    (do tellIf test function fault; pure x) = clean y ↔ D ∧ e = y := by
  simp only [bind_eq_clean, tellIf_eq_clean, pure_eq_clean, exists_const, hD]
  exact and_congr_right fun h => by rw [hx h]

/-- The name of an item is entered without an issue if it is not there. -/
theorem declareItem_eq_clean (h : names.Distinct) :
    declareItem names i = clean names' ↔ (names.enter i).Distinct ∧ names.enter i = names' := by
  have hcallee (name : String) : ({ names with callees := name :: names.callees } : ModuleNames).Distinct ↔
      names.callees.contains name = false := by
    rw [Bool.eq_false_iff, ne_eq, List.contains_iff_mem]
    exact ⟨fun hd => (List.nodup_cons.1 hd.callees).1, fun hd => ⟨h.types, h.globals, List.nodup_cons.2 ⟨hd, h.callees⟩⟩⟩
  cases i with
  | dataLayout s =>
    rw [declareItem, clean_inj]
    exact (and_iff_right h).symm
  | typeDef t =>
    have hfresh := Table.nodup_keys_append h.types t.name.name t.fields
    refine tellIf_pure_eq_clean ⟨fun hd => hfresh.1 hd.types, fun hd => ⟨hfresh.2 hd, h.globals, h.callees⟩⟩ fun hd => ?_
    rw [Table.insert_of_contains hd]
    rfl
  | globalDef g =>
    have hfresh := Table.nodup_keys_append h.globals g.name.name names.globals.size
    refine tellIf_pure_eq_clean ⟨fun hd => hfresh.1 hd.globals, fun hd => ⟨h.types, hfresh.2 hd, h.callees⟩⟩ fun hd => ?_
    rw [Table.insert_of_contains hd]
    rfl
  | declare d => exact tellIf_pure_eq_clean (hcallee d.name.name) fun _ => rfl
  | define f => exact tellIf_pure_eq_clean (hcallee f.name.name) fun _ => rfl

theorem declareItems_eq_clean (h : names.Distinct) :
    declareItems items names = clean names' ↔
      (items.foldl enter names).Distinct ∧ items.foldl enter names = names' := by
  induction items generalizing names with
  | nil =>
    rw [declareItems, clean_inj]
    exact (and_iff_right h).symm
  | cons i items ih =>
    simp only [declareItems, bind_eq_clean, declareItem_eq_clean h]
    constructor
    · rintro ⟨_, ⟨hi, rfl⟩, hitems⟩
      exact (ih hi).1 hitems
    · intro hitems
      have hi := (show (items.foldl enter (names.enter i)).Distinct from hitems.1).of_foldl
      exact ⟨_, ⟨hi, rfl⟩, (ih hi).2 hitems⟩

end ModuleNames

/-! ## 2. Globals -/

section

variable {name name' : String} {ty : Ty} {init : GlobalInitExpr} {v : GlobalInit} {types types' : TypeDefs}
  {d : GlobalDef} {g : Global}

theorem settled_resolveInit : (resolveInit name ty init).Settled := by
  cases init with
  | scalar l => exact settled_resolveLiteral.bind rfl fun _ => settled_some
  | array ls =>
    cases ty with
    | array n element =>
      simp only [resolveInit]
      split_ifs
      · exact settled_missing
      · exact (settled_untilMissing fun l _ => settled_resolveLiteral).bind rfl fun _ => settled_some
    | _ => exact settled_missing

theorem settled_resolveGlobal : (resolveGlobal types d).Settled :=
  settled_expandType.bind rfl fun _ => settled_resolveInit.bind rfl fun _ => settled_some

theorem resolveGlobal_eq_clean :
    resolveGlobal types d = clean (some g) ↔ ∃ ty, expandType types d.ty = clean (some ty) ∧
      ∃ v, resolveInit d.name.name ty d.init = clean (some v) ∧ ⟨d.name.name, d.isConstant, ty, v⟩ = g := by
  simp only [resolveGlobal, bind_eq_clean]
  constructor
  · rintro ⟨o, ho, h⟩
    cases o with
    | none => simp at h
    | some ty =>
      exact ⟨ty, ho, map_eq_clean.1 h⟩
  · rintro ⟨ty, hty, v, hv, rfl⟩
    exact ⟨some ty, hty, by simp [hv]⟩

/-- The first value of a global is written by an expression that is resolved to it. -/
theorem init_back (hinit : init.Valid IsFinite) (h : resolveInit name ty init = clean (some v))
    (hread : ∀ x ∈ v.floats, IsFinite x → ReadsBack x) :
    resolveInit name' ty v.expr = clean (some v) ∧ v.expr.Valid ReadsBack := by
  cases init with
  | scalar l =>
    simp only [resolveInit, map_eq_clean] at h
    obtain ⟨c, hl, rfl⟩ := h
    refine ⟨by simp [GlobalInit.expr, resolveInit, resolveLiteral_literal hl], valid_literal hinit hl ?_⟩
    rintro x hx rfl
    exact hread x (by simp [GlobalInit.floats, Constant.float?]) hx
  | array ls =>
    cases ty with
    | array n element =>
      simp only [resolveInit] at h
      split_ifs at h with hlength
      · exact absurd h missing_ne_clean
      simp only [map_eq_clean, untilMissing_eq_clean] at h
      obtain ⟨cs, hls, rfl⟩ := h
      have hback : List.Forall₂ (fun l c => resolveLiteral none l element = clean (some c)) (cs.map Constant.literal) cs :=
        List.forall₂_map_left_iff.2 (List.forall₂_same.2
          (forall_of_forall₂ hls fun l _ c _ hl => resolveLiteral_literal hl))
      refine ⟨?_, List.forall_mem_map.2 (forall_of_forall₂ hls fun l hl c hc heq => valid_literal (hinit l hl) heq ?_)⟩
      · rw [hls.length_eq] at hlength
        simp only [GlobalInit.expr, resolveInit, List.length_map, hlength, if_false, untilMissing_eq_clean.2 hback]
        rfl
      · rintro x hx rfl
        exact hread x (List.mem_filterMap.2 ⟨_, hc, rfl⟩) hx
    | _ => exact absurd h missing_ne_clean

/-- A global is written by a definition that is resolved to it. -/
theorem global_back (hdefs : Rewrites types types') (hd : (Item.globalDef d).Valid IsFinite)
    (h : resolveGlobal types d = clean (some g)) (hread : ∀ x ∈ g.init.floats, IsFinite x → ReadsBack x) :
    resolveGlobal types' g.tree = clean (some g) ∧ (Item.globalDef g.tree).Valid ReadsBack := by
  obtain ⟨hname, hty, hinit⟩ := hd
  obtain ⟨ty, htype, v, hv, rfl⟩ := resolveGlobal_eq_clean.1 h
  obtain ⟨hresolves, hvalid⟩ := init_back hinit hv hread
  exact ⟨resolveGlobal_eq_clean.2 ⟨ty, hdefs.expandType htype, v, hresolves, rfl⟩,
    hname, (valid_expr_of_expandType hty htype).1, hvalid⟩

end

/-! ## 3. Entities -/

/-- What an item of a module stands for. -/
inductive Entity where
  | layout (s : String)
  | type (t : NamedType)
  | global (g : Global)
  | declaration (d : Declaration)
  | function (f : Function)

namespace Entity

def layout? : Entity → Option String
  | .layout s => some s
  | _ => none

def type? : Entity → Option NamedType
  | .type t => some t
  | _ => none

def global? : Entity → Option Global
  | .global g => some g
  | _ => none

def declaration? : Entity → Option Declaration
  | .declaration d => some d
  | _ => none

def function? : Entity → Option Function
  | .function f => some f
  | _ => none

/-- The numbers that are written in an entity. -/
def floats : Entity → List Float
  | .global g => g.init.floats
  | .function f => f.floats
  | _ => []

/-- The item that writes an entity of a module. -/
def tree (m : Module) : Entity → Item
  | .layout s => .dataLayout s
  | .type t => .typeDef t.tree
  | .global g => .globalDef g.tree
  | .declaration d => .declare d.tree
  | .function f => .define (f.tree m)

/-- A module with an entity behind the others. -/
def addTo (m : Module) : Entity → Module
  | .layout s => { m with dataLayout := some s }
  | .type t => { m with types := m.types ++ [t] }
  | .global g => { m with globals := m.globals ++ [g] }
  | .declaration d => { m with declarations := m.declarations ++ [d] }
  | .function f => { m with functions := m.functions ++ [f] }

/-- The module of entities. -/
def moduleOf (es : List Entity) : Module := es.foldl addTo ⟨none, [], [], [], []⟩

end Entity

/-- The entities of a module, in the order in which they are written. -/
def entities (m : Module) : List Entity :=
  m.dataLayout.toList.map .layout ++ m.types.map .type ++ m.globals.map .global ++
    m.declarations.map .declaration ++ m.functions.map .function

theorem items_eq (m : Module) : m.items = (entities m).map (Entity.tree m) := by
  have hfunctions : (m.functions.map fun f => [Item.define (f.tree m)]).flatten =
      m.functions.map fun f => .define (f.tree m) := by
    rw [← List.flatMap_def, ← List.map_eq_flatMap]
  simp [Module.items, Module.parts, entities, Entity.tree, hfunctions, Function.comp_def]

theorem foldl_addTo (es : List Entity) (m : Module) :
    es.foldl Entity.addTo m = ⟨(es.reverse.findSome? Entity.layout?).or m.dataLayout,
      m.types ++ es.filterMap Entity.type?, m.globals ++ es.filterMap Entity.global?,
      m.declarations ++ es.filterMap Entity.declaration?, m.functions ++ es.filterMap Entity.function?⟩ := by
  induction es generalizing m with
  | nil => simp
  | cons e es ih =>
    rw [List.foldl_cons, ih]
    cases e <;>
      simp [List.filterMap_cons, Entity.addTo, Entity.layout?, Entity.type?, Entity.global?, Entity.declaration?,
        Entity.function?]

theorem moduleOf_eq (es : List Entity) :
    Entity.moduleOf es = ⟨es.reverse.findSome? Entity.layout?, es.filterMap Entity.type?,
      es.filterMap Entity.global?, es.filterMap Entity.declaration?, es.filterMap Entity.function?⟩ := by
  simp [Entity.moduleOf, foldl_addTo]

theorem moduleOf_entities (m : Module) : Entity.moduleOf (entities m) = m := by
  have hnone {α : Type} (l : List α) : l.findSome? (fun _ => (none : Option String)) = none :=
    List.findSome?_eq_none_iff.2 fun _ _ => rfl
  obtain ⟨layout, types, globals, declarations, functions⟩ := m
  cases layout <;>
    simp [moduleOf_eq, entities, List.filterMap_cons, List.filterMap_map, Function.comp_def, ← List.map_reverse,
      List.findSome?_map, hnone, Entity.layout?, Entity.type?, Entity.global?, Entity.declaration?, Entity.function?]

theorem mem_of_mem_entities {es : List Entity} {e : Entity} (h : e ∈ entities (Entity.moduleOf es)) : e ∈ es := by
  rw [moduleOf_eq] at h
  simp only [entities, List.mem_append, List.mem_map, Option.mem_toList, List.mem_filterMap, or_assoc] at h
  obtain ⟨s, hs, rfl⟩ | ⟨_, ⟨e, he, h⟩, rfl⟩ | ⟨_, ⟨e, he, h⟩, rfl⟩ | ⟨_, ⟨e, he, h⟩, rfl⟩ | ⟨_, ⟨e, he, h⟩, rfl⟩ := h
  · obtain ⟨e, he, h⟩ := List.exists_of_findSome?_eq_some hs
    cases e <;> cases h
    exact List.mem_reverse.1 he
  all_goals
    cases e <;> cases h
    exact he

/-- An item stands for an entity. -/
inductive Resolves (names : ModuleNames) : Item → Entity → Prop
  | layout (s : String) : Resolves names (.dataLayout s) (.layout s)
  | type {t : TypeDef} {fields : List Ty} (hfields : presentTypes names.types t.fields = clean fields) :
    Resolves names (.typeDef t) (.type ⟨t.name.name, fields⟩)
  | global {d : GlobalDef} {g : Global} (hg : resolveGlobal names.types d = clean (some g)) :
    Resolves names (.globalDef d) (.global g)
  | declaration {d : DeclareDef} {ret : Ty} {params : List Ty} (hret : typeOrVoid names.types d.ret = clean ret)
    (hparams : presentTypes names.types d.params = clean params) :
    Resolves names (.declare d) (.declaration ⟨d.name.name, ret, params⟩)
  | function {d : FunctionDef} {f : Function} (hf : resolveFunction names d = clean f) :
    Resolves names (.define d) (.function f)

/-! ## 4. Both passes -/

section

variable {names : ModuleNames} {i : Item} {items : List Item} {m m' : Module}

/-- An item adds the entity that it stands for. -/
theorem addItem_eq_clean :
    addItem names m i = clean m' ↔ ∃ e, Resolves names i e ∧ e.addTo m = m' := by
  constructor
  · intro h
    cases i with
    | dataLayout s => exact ⟨_, .layout s, clean_inj.1 h⟩
    | typeDef t =>
      simp only [addItem, bind_eq_clean, pure_eq_clean] at h
      obtain ⟨fields, hfields, rfl⟩ := h
      exact ⟨_, .type hfields, rfl⟩
    | globalDef d =>
      simp only [addItem, bind_eq_clean, pure_eq_clean] at h
      obtain ⟨g, hg, rfl⟩ := h
      obtain ⟨g, rfl⟩ := settled_resolveGlobal.exists_some hg
      exact ⟨_, .global hg, rfl⟩
    | declare d =>
      simp only [addItem, bind_eq_clean, pure_eq_clean] at h
      obtain ⟨ret, hret, params, hparams, rfl⟩ := h
      exact ⟨_, .declaration hret hparams, rfl⟩
    | define d =>
      simp only [addItem, bind_eq_clean, pure_eq_clean] at h
      obtain ⟨f, hf, rfl⟩ := h
      exact ⟨_, .function hf, rfl⟩
  · rintro ⟨e, he, rfl⟩
    cases he with
    | layout s => rfl
    | type hfields => simp only [addItem, hfields, clean_bind, pure_eq_clean, Entity.addTo]
    | global hg => simp only [addItem, hg, clean_bind, pure_eq_clean, Option.toList_some, Entity.addTo]
    | declaration hret hparams => simp only [addItem, hret, hparams, clean_bind, pure_eq_clean, Entity.addTo]
    | function hf => simp only [addItem, hf, clean_bind, pure_eq_clean, Entity.addTo]

theorem addItems_eq_clean :
    addItems names items m = clean m' ↔ ∃ es, List.Forall₂ (Resolves names) items es ∧ es.foldl Entity.addTo m = m' := by
  induction items generalizing m with
  | nil => simp [addItems]
  | cons i items ih =>
    simp only [addItems, bind_eq_clean, addItem_eq_clean, ih, List.forall₂_cons_left_iff]
    constructor
    · rintro ⟨_, ⟨e, he, rfl⟩, es, hes, rfl⟩
      exact ⟨_, ⟨e, es, he, hes, rfl⟩, rfl⟩
    · rintro ⟨_, ⟨e, es, he, hes, rfl⟩, rfl⟩
      exact ⟨_, ⟨e, he, rfl⟩, es, hes, rfl⟩

/-- Items are resolved without an issue to the module of their entities. -/
theorem checkItems_eq_clean :
    checkItems items = clean m ↔ (ofItems items).Distinct ∧
      ∃ es, List.Forall₂ (Resolves (.ofItems items)) items es ∧ Entity.moduleOf es = m := by
  have hempty : ModuleNames.Distinct ⟨.empty, .empty, []⟩ := ⟨List.nodup_nil, List.nodup_nil, List.nodup_nil⟩
  simp only [checkItems, bind_eq_clean, declareItems_eq_clean hempty, addItems_eq_clean]
  constructor
  · rintro ⟨_, ⟨hnames, rfl⟩, hes⟩
    exact ⟨hnames, hes⟩
  · rintro ⟨hnames, hes⟩
    exact ⟨_, ⟨hnames, rfl⟩, hes⟩

theorem resolve_eq_ok : resolve items = .ok m ↔ checkItems items = clean m := by
  rcases hchecked : checkItems items with ⟨value, issues⟩
  cases issues <;> simp [resolve, hchecked, clean]

end

/-! ## 5. Modules -/

def typeDef? : Item → Option TypeDef
  | .typeDef t => some t
  | _ => none

def globalName? : Item → Option String
  | .globalDef g => some g.name.name
  | _ => none

def callee? : Item → Option String
  | .declare d => some d.name.name
  | .define f => some f.name.name
  | _ => none

theorem foldl_enter (items : List Item) (names : ModuleNames) :
    items.foldl enter names =
      ⟨⟨names.types.entries ++ (items.filterMap typeDef?).map fun t => (t.name.name, t.fields)⟩,
        ⟨names.globals.entries ++ (items.filterMap globalName?).zipIdx names.globals.size⟩,
        (items.filterMap callee?).reverse ++ names.callees⟩ := by
  induction items generalizing names with
  | nil => simp
  | cons i items ih =>
    rw [List.foldl_cons, ih]
    cases i <;> simp [enter, List.filterMap_cons, typeDef?, globalName?, callee?, Table.size]

theorem ofItems_eq (items : List Item) :
    ofItems items =
      ⟨⟨(items.filterMap typeDef?).map fun t => (t.name.name, t.fields)⟩, ⟨(items.filterMap globalName?).zipIdx⟩,
        (items.filterMap callee?).reverse⟩ := by
  simp [ofItems, foldl_enter, Table.empty, Table.size]

/-- The names of the items that a module writes. -/
theorem ofItems_items (m : Module) :
    ofItems m.items =
      ⟨⟨m.types.map fun t => (t.name, t.fields.map Ty.expr)⟩, ⟨(m.globals.map (·.name)).zipIdx⟩,
        (m.declarations.map (·.name) ++ m.functions.map (·.name)).reverse⟩ := by
  rw [ofItems_eq, items_eq]
  simp [entities, List.filterMap_map, Function.comp_def, Entity.tree, typeDef?, globalName?, callee?, NamedType.tree,
    Global.tree, Declaration.tree, Function.tree, Ident.ofName]

section

variable {names : ModuleNames} {items : List Item} {es : List Entity}

theorem name_of_resolveFunction {d : FunctionDef} {f : Function} (h : resolveFunction names d = clean f) :
    f.name = d.name.name := by
  simp only [resolveFunction, bind_eq_clean, pure_eq_clean] at h
  obtain ⟨_, -, _, -, _, -, _, -, _, -, rfl⟩ := h
  rfl

theorem name_of_resolveGlobal {types : TypeDefs} {d : GlobalDef} {g : Global}
    (h : resolveGlobal types d = clean (some g)) : g.name = d.name.name := by
  obtain ⟨_, -, _, -, rfl⟩ := resolveGlobal_eq_clean.1 h
  rfl

/-- The named types of entities are those of their items, in this order. -/
theorem types_of_resolves (h : List.Forall₂ (Resolves names) items es) :
    List.Forall₂ (fun d t => t.name = d.name.name ∧ presentTypes names.types d.fields = clean t.fields)
      (items.filterMap typeDef?) (es.filterMap Entity.type?) := by
  induction h with
  | nil => exact .nil
  | cons he _ ih =>
    cases he with
    | type hfields => exact .cons ⟨rfl, hfields⟩ ih
    | layout s | global hg | declaration hret hparams | function hf => exact ih

/-- The globals of entities have the names of their items, in this order. -/
theorem globals_of_resolves (h : List.Forall₂ (Resolves names) items es) :
    items.filterMap globalName? = (es.filterMap Entity.global?).map (·.name) := by
  induction h with
  | nil => rfl
  | cons he _ ih =>
    cases he with
    | global hg => simp [globalName?, Entity.global?, name_of_resolveGlobal hg, ih]
    | layout s | type hfields | declaration hret hparams | function hf => exact ih

/-- The functions of entities have the names of their items, those that are defined behind those that are declared. -/
theorem callees_of_resolves (h : List.Forall₂ (Resolves names) items es) :
    (items.filterMap callee?).Perm
      ((es.filterMap Entity.declaration?).map (·.name) ++ (es.filterMap Entity.function?).map (·.name)) := by
  induction h with
  | nil => exact .nil
  | cons he _ ih =>
    cases he with
    | declaration hret hparams => exact ih.cons _
    | function hf =>
      simp only [List.filterMap_cons, callee?, Entity.function?, Entity.declaration?, List.map_cons,
        name_of_resolveFunction hf]
      exact (ih.cons _).trans List.perm_middle.symm
    | layout s | type hfields | global hg => exact ih

/-- What was found among definitions is found, in other words, among those that write what they stand for. -/
theorem findIn_types {defs : TypeDefs} {ds : List TypeDef} {ts : List NamedType} {name : String}
    {fields : List TypeExpr}
    (h : List.Forall₂ (fun d t => t.name = d.name.name ∧ presentTypes defs d.fields = clean t.fields) ds ts)
    (hfound : Table.findIn name (ds.map fun d => (d.name.name, d.fields)) = some fields) :
    ∃ tys, presentTypes defs fields = clean tys ∧
      Table.findIn name (ts.map fun t => (t.name, t.fields.map Ty.expr)) = some (tys.map Ty.expr) := by
  induction h with
  | nil => cases hfound
  | cons ht _ ih =>
    obtain ⟨hname, hfields⟩ := ht
    simp only [List.map_cons, Table.findIn, hname] at hfound ⊢
    split_ifs at hfound ⊢ with heq
    · obtain rfl := Option.some.inj hfound
      exact ⟨_, hfields, rfl⟩
    · exact ih hfound

/-- The items that a module writes have the names of those that it was resolved from. -/
theorem moduleReturns_of_resolves (h : List.Forall₂ (Resolves (.ofItems items)) items es) :
    ModuleReturns (Entity.moduleOf es) (.ofItems items) (.ofItems (Entity.moduleOf es).items) := by
  have htypes := types_of_resolves h
  have hglobals := globals_of_resolves h
  have hentries : (ofItems items).globals = ⟨((es.filterMap Entity.global?).map (·.name)).zipIdx⟩ := by
    rw [ofItems_eq, hglobals]
  rw [ofItems_items, moduleOf_eq]
  refine ⟨⟨?_, fun name fields hfound => ?_⟩, hentries.symm, fun x g hx => ?_, fun name hname => ?_⟩
  · rw [ofItems_eq]
    simpa [Table.size] using htypes.length_eq.symm
  · obtain ⟨tys, htys, hfound⟩ := findIn_types htypes (by rw [ofItems_eq] at hfound; exact hfound)
    exact ⟨tys, presentTypes_eq_clean.1 htys, hfound⟩
  · rw [hentries] at hx
    have hmem := Table.mem_of_findIn hx
    rw [List.mem_zipIdx_iff_getElem?, List.getElem?_map] at hmem
    exact Option.map_eq_some_iff.1 hmem
  · rw [ofItems_eq, List.mem_reverse] at hname
    exact List.mem_reverse.2 ((callees_of_resolves h).subset hname)

theorem distinct_of_resolves (hdistinct : (ofItems items).Distinct)
    (h : List.Forall₂ (Resolves names) items es) : (ofItems (Entity.moduleOf es).items).Distinct := by
  obtain ⟨htypes, hglobals, hcallees⟩ := hdistinct
  rw [ofItems_eq] at htypes hglobals hcallees
  rw [ofItems_items, moduleOf_eq]
  have hnames : (items.filterMap typeDef?).map (·.name.name) = (es.filterMap Entity.type?).map (·.name) :=
    (map_eq_of_forall₂ (types_of_resolves h) fun _ _ ht => ht.1).symm
  refine ⟨?_, ?_, ?_⟩
  · simpa [Table.keys, Function.comp_def, hnames] using htypes
  · simpa [Table.keys, globals_of_resolves h] using hglobals
  · exact List.nodup_reverse.2 ((callees_of_resolves h).nodup_iff.1 (List.nodup_reverse.1 hcallees))

/-- What an entity of a module is written by. -/
structure EntityBack (m : Module) (names : ModuleNames) (e : Entity) : Prop where
  resolves : Resolves names (e.tree m) e
  valid : (e.tree m).Valid ReadsBack
  nameable : ∀ f, e = .function f → f.Nameable m

/-- An entity is written by an item that stands for it. -/
theorem ModuleReturns.entity {m : Module} {names' : ModuleNames} (h : ModuleReturns m names names') {i : Item}
    {e : Entity} (hi : i.Valid IsFinite) (he : Resolves names i e)
    (hread : ∀ x ∈ e.floats, IsFinite x → ReadsBack x) : EntityBack m names' e := by
  have hexpr {ts : List TypeExpr} {tys : List Ty} (hts : ∀ t ∈ ts, t.Valid)
      (htys : presentTypes names.types ts = clean tys) : ∀ t ∈ tys.map Ty.expr, t.Valid :=
    List.forall_mem_map.2 (forall_of_forall₂ (presentTypes_eq_clean.1 htys) fun t ht ty _ hty =>
      (valid_expr_of_expandType (hts t ht) hty).1)
  cases he with
  | layout s => exact ⟨.layout s, hi, by simp⟩
  | type hfields => exact ⟨.type (h.types.presentTypes hfields), ⟨hi.1, hexpr hi.2 hfields⟩, by simp⟩
  | global hg =>
    obtain ⟨hresolves, hvalid⟩ := global_back h.types hi hg hread
    exact ⟨.global hresolves, hvalid, by simp⟩
  | declaration hret hparams =>
    refine ⟨.declaration (h.types.typeOrVoid hret) (h.types.presentTypes hparams), ⟨hi.1, ?_, hexpr hi.2.2 hparams⟩, by simp⟩
    exact (valid_expr_of_expandType hi.2.1 (typeOrVoid_eq_clean.1 hret)).1
  | function hf =>
    obtain ⟨hresolves, hnameable, hvalid⟩ := h.function hi hf hread
    refine ⟨.function hresolves, hvalid, ?_⟩
    rintro _ ⟨⟩
    exact hnameable

theorem floats_subset {m : Module} {e : Entity} (h : e ∈ entities m) : e.floats ⊆ m.floats := by
  cases e with
  | global g =>
    have hg : g ∈ m.globals := by simpa [entities] using h
    exact fun x hx => List.mem_append_left _ (List.mem_flatMap.2 ⟨g, hg, hx⟩)
  | function f =>
    have hf : f ∈ m.functions := by simpa [entities] using h
    exact fun x hx => List.mem_append_right _ (List.mem_flatMap.2 ⟨f, hf, hx⟩)
  | layout s | type t | declaration d => exact List.nil_subset _

end

/-- A module that was resolved without an issue writes items that are resolved to it. -/
theorem checkItems_items {items : List Item} {m : Module} (hitems : ∀ i ∈ items, i.Valid IsFinite)
    (h : checkItems items = clean m) (hread : ∀ x ∈ m.floats, IsFinite x → ReadsBack x) :
    checkItems m.items = clean m ∧ (∀ i ∈ m.items, i.Valid ReadsBack) ∧ ∀ f ∈ m.functions, f.Nameable m := by
  obtain ⟨hdistinct, es, hes, rfl⟩ := checkItems_eq_clean.1 h
  have hback : ∀ e ∈ es, e ∈ entities (Entity.moduleOf es) →
      EntityBack (Entity.moduleOf es) (.ofItems (Entity.moduleOf es).items) e :=
    forall_of_forall₂ hes fun i hi e _ he hmem =>
      (moduleReturns_of_resolves hes).entity (hitems i hi) he fun x hx => hread x (floats_subset hmem hx)
  have hentities : ∀ e ∈ entities (Entity.moduleOf es),
      EntityBack (Entity.moduleOf es) (.ofItems (Entity.moduleOf es).items) e :=
    fun e he => hback e (mem_of_mem_entities he) he
  refine ⟨checkItems_eq_clean.2 ⟨distinct_of_resolves hdistinct hes, _, ?_, moduleOf_entities _⟩, ?_, ?_⟩
  · have hwritten : List.Forall₂ (fun i e => Resolves (.ofItems (Entity.moduleOf es).items) i e)
        ((entities (Entity.moduleOf es)).map (Entity.tree (Entity.moduleOf es))) (entities (Entity.moduleOf es)) :=
      List.forall₂_map_left_iff.2 (List.forall₂_same.2 fun e he => (hentities e he).resolves)
    rwa [← items_eq] at hwritten
  · rw [items_eq]
    exact List.forall_mem_map.2 fun e he => (hentities e he).valid
  · exact fun f hf => (hentities (.function f) (by simpa [entities] using hf)).nameable f rfl

end RangedIR.Scope
