/-
RangedIR.Proofs.Scope.Clean — resolution without issues.

A checked value is `clean` if no issue was found on the way to it. Each step of a
clean resolution is clean itself, so what was resolved can be taken apart step by
step. The last part shows that the places of names have no influence: a tree and
the tree without places are resolved alike.
-/
import Mathlib.Data.List.Forall2
import RangedIR.Proofs.Source.Reading
import RangedIR.Proofs.Table
import RangedIR.Scope.Module

namespace RangedIR.Scope

open Source

/-! ## 1. Checked values -/

/-- What holds of everything related to a member holds of the other list. -/
theorem forall_of_forall₂ {α β : Type} {R : α → β → Prop} {P : β → Prop} {l : List α} {bs : List β}
    (h : List.Forall₂ R l bs) (hP : ∀ a ∈ l, ∀ b ∈ bs, R a b → P b) : ∀ b ∈ bs, P b := by
  induction h with
  | nil => simp
  | cons hb _ ih =>
    refine List.forall_mem_cons.2 ⟨hP _ List.mem_cons_self _ List.mem_cons_self hb, ih fun a ha b hb => ?_⟩
    exact hP a (List.mem_cons_of_mem _ ha) b (List.mem_cons_of_mem _ hb)

/-- Lists that are related name by name have the same names. -/
theorem map_eq_of_forall₂ {α β γ : Type} {R : α → β → Prop} {l : List α} {bs : List β} {f : α → γ} {g : β → γ}
    (h : List.Forall₂ R l bs) (hR : ∀ a b, R a b → g b = f a) : bs.map g = l.map f := by
  induction h with
  | nil => rfl
  | cons hb _ ih => rw [List.map_cons, List.map_cons, hR _ _ hb, ih]

namespace Checked

variable {α β γ : Type} {c : Checked α} {f : α → Checked β} {a : α} {b : β}

@[simp] theorem clean_inj {x : α} : clean a = clean x ↔ a = x := by simp [clean]

@[simp] theorem pure_eq_clean {x : α} : (pure a : Checked α) = clean x ↔ a = x := clean_inj

@[simp] theorem bind_eq_clean : (c >>= f) = clean b ↔ ∃ x, c = clean x ∧ f x = clean b := by
  obtain ⟨x, issues⟩ := c
  show andThen ⟨x, issues⟩ f = clean b ↔ _
  rcases hf : f x with ⟨y, more⟩
  simp only [andThen, hf, clean, mk.injEq, List.append_eq_nil_iff]
  constructor
  · rintro ⟨rfl, rfl, rfl⟩
    exact ⟨x, ⟨rfl, rfl⟩, hf⟩
  · rintro ⟨_, ⟨rfl, rfl⟩, h⟩
    cases hf.symm.trans h
    exact ⟨rfl, rfl, rfl⟩

@[simp] theorem clean_bind : (clean a >>= f) = f a := rfl

variable {function : Option String} {fault : Fault}

@[simp] theorem tell_ne_clean {u : Unit} :
    tell function fault ≠ clean u := by simp [tell, clean]

@[simp] theorem missing_ne_clean {x : Option α} :
    missing function fault ≠ clean x := by simp [missing, clean]

@[simp] theorem tellIf_eq_clean {test : Bool} {u : Unit} :
    tellIf test function fault = clean u ↔ test = false := by
  cases test <;> simp [tellIf]

theorem map_eq_clean {g : Checked (Option α)} {h : α → β} :
    (do pure ((← g).map h)) = clean (some b) ↔ ∃ a, g = clean (some a) ∧ h a = b := by
  simp only [bind_eq_clean, pure_eq_clean, Option.map_eq_some_iff]
  constructor
  · rintro ⟨_, hg, a, rfl, rfl⟩
    exact ⟨a, hg, rfl⟩
  · rintro ⟨a, hg, rfl⟩
    exact ⟨some a, hg, a, rfl, rfl⟩

@[simp] theorem each_eq_clean {l : List α} {bs : List β} :
    each f l = clean bs ↔ List.Forall₂ (fun a b => f a = clean b) l bs := by
  induction l generalizing bs with
  | nil => cases bs <;> simp [each]
  | cons a l ih =>
    simp only [each, bind_eq_clean, pure_eq_clean, ih, List.forall₂_cons_left_iff]
    constructor
    · rintro ⟨b, hb, bs', hbs, rfl⟩
      exact ⟨b, bs', hb, hbs, rfl⟩
    · rintro ⟨b, bs', hb, hbs, rfl⟩
      exact ⟨b, hb, bs', hbs, rfl⟩

/-- Members that are written so that they resolve again. -/
theorem each_map_eq_clean {g : β → α} {bs : List β} (h : ∀ b ∈ bs, f (g b) = clean b) :
    each f (bs.map g) = clean bs :=
  each_eq_clean.2 (List.forall₂_map_left_iff.2 (List.forall₂_same.2 h))

@[simp] theorem untilMissing_eq_clean {g : α → Checked (Option β)} {l : List α} {bs : List β} :
    untilMissing g l = clean (some bs) ↔ List.Forall₂ (fun a b => g a = clean (some b)) l bs := by
  induction l generalizing bs with
  | nil => cases bs <;> simp [untilMissing]
  | cons a l ih =>
    simp only [untilMissing, bind_eq_clean, List.forall₂_cons_left_iff]
    constructor
    · rintro ⟨o, ho, h⟩
      cases o with
      | none => simp at h
      | some b =>
        obtain ⟨bs', hbs, rfl⟩ := map_eq_clean.1 h
        exact ⟨b, bs', ho, ih.1 hbs, rfl⟩
    · rintro ⟨b, bs', hb, hbs, rfl⟩
      exact ⟨some b, hb, by simp [ih.2 hbs]⟩

/-- There is a value exactly if there is no issue. -/
def Settled (c : Checked (Option α)) : Prop := c.issues = [] ↔ c.value.isSome

theorem settled_some : Settled (clean (some a)) := iff_of_true rfl rfl

theorem settled_missing :
    Settled (missing function fault : Checked (Option α)) := by simp [Settled, missing]

/-- A step that goes on from a value alone. -/
theorem Settled.bind {c : Checked (Option α)} {k : Option α → Checked (Option β)} (hc : c.Settled)
    (hnone : k none = clean none) (hsome : ∀ a, (k (some a)).Settled) : (c >>= k).Settled := by
  obtain ⟨_ | a, issues⟩ := c
  · have hissues : issues ≠ [] := by simpa [Settled] using hc
    show Settled (andThen _ k)
    simp [Settled, andThen, hnone, clean, hissues]
  · obtain rfl : issues = [] := hc.2 rfl
    exact hsome a

theorem Settled.exists_some {c : Checked (Option α)} {o : Option α} (h : c.Settled) (ho : c = clean o) :
    ∃ a, o = some a := Option.isSome_iff_exists.1 (by subst ho; exact h.1 rfl)

theorem settled_untilMissing {g : α → Checked (Option β)} {l : List α} (h : ∀ a ∈ l, (g a).Settled) :
    (untilMissing g l).Settled := by
  induction l with
  | nil => exact settled_some
  | cons a l ih =>
    obtain ⟨ha, hl⟩ := List.forall_mem_cons.1 h
    exact ha.bind rfl fun b => (ih hl).bind rfl fun _ => settled_some

theorem each_map (f : β → Checked γ) (g : α → β) (l : List α) :
    each f (l.map g) = each (fun a => f (g a)) l := by
  induction l with
  | nil => rfl
  | cons a l ih => simp only [List.map_cons, each, ih]

end Checked

/-! ## 2. Types -/

/-- Structural induction on types as written. -/
theorem TypeExpr.structural {P : TypeExpr → Prop} (void : P .void) (int : ∀ bits, P (.int bits)) (float : P .float)
    (double : P .double) (named : ∀ n, P (.named n)) (ptr : ∀ t, P t → P (.ptr t))
    (array : ∀ n t, P t → P (.array n t)) (struct : ∀ fields, (∀ t ∈ fields, P t) → P (.struct fields))
    (t : TypeExpr) : P t :=
  @TypeExpr.rec P (fun ts => ∀ t ∈ ts, P t) void int float double named ptr array struct
    (fun _ h => by cases h) (fun _ _ ht hts => List.forall_mem_cons.2 ⟨ht, hts⟩) t

open Checked

section

variable {named : Ident → Checked (Option Ty)} {defs : TypeDefs} {t : TypeExpr} {ts : List TypeExpr} {ty : Ty}
  {tys : List Ty}

theorem expandAllWith_eq_untilMissing : expandAllWith named ts = untilMissing (expandWith named) ts := by
  induction ts with
  | nil => rfl
  | cons t ts ih =>
    rw [expandAllWith, untilMissing, ih]
    refine congrArg (expandWith named t >>= ·) (funext fun o => ?_)
    cases o <;> rfl

@[simp] theorem expandAllWith_eq_clean :
    expandAllWith named ts = clean (some tys) ↔
      List.Forall₂ (fun t ty => expandWith named t = clean (some ty)) ts tys := by
  rw [expandAllWith_eq_untilMissing, untilMissing_eq_clean]

theorem settled_expandWith (hnamed : ∀ n, (named n).Settled) : (expandWith named t).Settled := by
  induction t using TypeExpr.structural with
  | struct fields ih =>
    rw [expandWith, expandAllWith_eq_untilMissing]
    exact (settled_untilMissing ih).bind rfl fun _ => settled_some
  | ptr t ih | array n t ih => exact ih.bind rfl fun _ => settled_some
  | named n => exact hnamed n
  | void | int | float | double => exact settled_some

theorem settled_expandName (fuel : Nat) (expanding : List String) (n : Ident) :
    (expandName defs fuel expanding n).Settled := by
  induction fuel generalizing expanding n with
  | zero => exact settled_missing
  | succ fuel ih =>
    rw [expandName]
    split
    · exact settled_missing
    · split_ifs
      · exact settled_missing
      · rw [expandAllWith_eq_untilMissing]
        exact (settled_untilMissing fun t _ => settled_expandWith (ih _)).bind rfl fun _ => settled_some

theorem settled_expandType : (expandType defs t).Settled := settled_expandWith (settled_expandName _ _)

@[simp] theorem typeOrVoid_eq_clean : typeOrVoid defs t = clean ty ↔ expandType defs t = clean (some ty) := by
  simp only [typeOrVoid, bind_eq_clean, pure_eq_clean]
  constructor
  · rintro ⟨o, ho, rfl⟩
    obtain ⟨ty, rfl⟩ := settled_expandType.exists_some ho
    exact ho
  · intro h
    exact ⟨some ty, h, rfl⟩

@[simp] theorem presentTypes_eq_clean :
    presentTypes defs ts = clean tys ↔ List.Forall₂ (fun t ty => expandType defs t = clean (some ty)) ts tys := by
  simp only [presentTypes, bind_eq_clean, pure_eq_clean, each_eq_clean]
  constructor
  · rintro ⟨os, hos, rfl⟩
    induction hos with
    | nil => exact .nil
    | cons ho _ ih =>
      obtain ⟨ty, rfl⟩ := settled_expandType.exists_some ho
      exact .cons ho ih
  · intro h
    exact ⟨tys.map some, List.forall₂_map_right_iff.2 h, by simp⟩

end

/-! ## 3. Places -/

theorem name_erase (x : Ident) : x.erase.name = x.name := rfl

/-- Definitions without the places of names. -/
def TypeDefs.erase (defs : TypeDefs) : TypeDefs := defs.mapValues fun _ ts => ts.map TypeExpr.erase

variable {named named' : Ident → Checked (Option Ty)}

theorem expandAllWith_map {g : TypeExpr → TypeExpr}
    (ts : List TypeExpr) (h : ∀ t ∈ ts, expandWith named' (g t) = expandWith named t) :
    expandAllWith named' (ts.map g) = expandAllWith named ts := by
  induction ts with
  | nil => rfl
  | cons t ts ih =>
    obtain ⟨ht, hts⟩ := List.forall_mem_cons.1 h
    simp only [List.map_cons, expandAllWith, ht, ih hts]

theorem expandWith_erase (h : ∀ n, named' n.erase = named n)
    (t : TypeExpr) : expandWith named' t.erase = expandWith named t := by
  induction t using TypeExpr.structural with
  | void | int | float | double => rfl
  | named n => exact h n
  | ptr t ih => simp only [TypeExpr.erase, expandWith, ih]
  | array n t ih => simp only [TypeExpr.erase, expandWith, ih]
  | struct fields ih =>
    simp only [TypeExpr.erase, TypeExpr.eraseAll_eq, expandWith, expandAllWith_map fields ih]

theorem expandName_erase (defs : TypeDefs) (fuel : Nat) (expanding : List String) (n : Ident) :
    expandName (TypeDefs.erase defs) fuel expanding n.erase = expandName defs fuel expanding n := by
  induction fuel generalizing expanding n with
  | zero => rfl
  | succ fuel ih =>
    have hfind : (TypeDefs.erase defs).find? n.name = (defs.find? n.name).map fun ts => ts.map TypeExpr.erase :=
      Table.find?_mapValues defs _ n.name
    simp only [expandName, Ident.erase, hfind]
    cases defs.find? n.name with
    | none => rfl
    | some fields =>
      have hfields := expandAllWith_map fields fun t _ => expandWith_erase (ih (n.name :: expanding)) t
      simp only [Option.map_some, hfields]

theorem expandType_erase (defs : TypeDefs) (t : TypeExpr) :
    expandType (TypeDefs.erase defs) t.erase = expandType defs t := by
  have hsize : (TypeDefs.erase defs).size = defs.size := List.length_map _
  rw [expandType, expandType, hsize]
  exact expandWith_erase (expandName_erase defs _ _) t

theorem typeOrVoid_erase (defs : TypeDefs) (t : TypeExpr) :
    typeOrVoid (TypeDefs.erase defs) t.erase = typeOrVoid defs t := by
  simp only [typeOrVoid, expandType_erase]

theorem presentTypes_erase (defs : TypeDefs) (ts : List TypeExpr) :
    presentTypes (TypeDefs.erase defs) (ts.map TypeExpr.erase) = presentTypes defs ts := by
  simp only [presentTypes, each_map, expandType_erase]

/-- The names of a module without their places. -/
def ModuleNames.erase (names : ModuleNames) : ModuleNames :=
  { names with types := TypeDefs.erase names.types }

namespace Names

/-- Names in scope without their places. -/
def erase (n : Names) : Names := { n with outer := n.outer.erase }

theorem type_erase (n : Names) (t : TypeExpr) : n.erase.type t.erase = n.type t := typeOrVoid_erase _ t

theorem value_erase (n : Names) (v : ValueExpr) (ty : Ty) : n.erase.value v.erase ty = n.value v ty := by
  cases v <;> rfl

theorem typed_erase (n : Names) (t : Typed) : n.erase.typed t.erase = n.typed t := by
  simp only [typed, Typed.erase, type_erase, value_erase]

theorem label_erase (n : Names) (l : Ident) : n.erase.label l.erase = n.label l := rfl

theorem instruction_erase (n : Names) (e : InstExpr) : n.erase.instruction e.erase = n.instruction e := by
  cases e with
  | ret v => cases v <;> simp only [InstExpr.erase, instruction, Option.map_none, Option.map_some, typed_erase]
  | elementPtr inbounds source base indices | call ret callee args =>
    simp only [InstExpr.erase, instruction, type_erase, typed_erase, each_map]
    rfl
  | _ => simp only [InstExpr.erase, instruction, type_erase, value_erase, typed_erase, label_erase, each_map]

theorem inst_erase (n : Names) (block : BlockId) (i : InstDef) : n.erase.inst block i.erase = n.inst block i := by
  cases h : i.result <;> simp only [inst, InstDef.erase, instruction_erase, h] <;> rfl

theorem blocks_erase (n : Names) (block : BlockId) (id : InstId) (bs : List BlockDef) :
    n.erase.blocks block id (bs.map BlockDef.erase) = n.blocks block id bs := by
  induction bs generalizing block id with
  | nil => rfl
  | cons b bs ih =>
    simp only [List.map_cons, blocks, BlockDef.erase, each_map, inst_erase, List.length_map, ih]
    rfl

end Names

theorem declareParams_erase (function : String) (defs : TypeDefs) (index : Nat) (ps : List (TypeExpr × Ident))
    (values : Table String Operand) :
    declareParams function (TypeDefs.erase defs) index (ps.map fun p => (p.1.erase, p.2.erase)) values =
      declareParams function defs index ps values := by
  induction ps generalizing index values with
  | nil => rfl
  | cons p ps ih =>
    simp only [List.map_cons, declareParams, typeOrVoid_erase, ih]
    rfl

/-- The name that an instruction gives its result. -/
def resultName? (i : InstDef) : Option String := i.result.map (·.name)

/-- The names that a block declares: its label and its results. -/
def declaredNames (b : BlockDef) : String × List (Option String) := (b.label.name, b.insts.map resultName?)

variable {function : String} {id : InstId}

theorem declareResults_congr {is js : List InstDef} {values : Table String Operand}
    (h : is.map resultName? = js.map resultName?) :
    declareResults function id is values = declareResults function id js values := by
  induction is generalizing id js values with
  | nil =>
    obtain rfl := List.map_eq_nil_iff.1 h.symm
    rfl
  | cons i is ih =>
    obtain ⟨j, js, rfl, hj, hjs⟩ := List.map_eq_cons_iff.1 h.symm
    cases hi : i.result with
    | none =>
      have hnone : j.result = none := by simpa [resultName?, hi] using hj
      simp only [declareResults, hi, hnone]
      exact ih hjs.symm
    | some x =>
      obtain ⟨y, hy, hxy⟩ : ∃ y, j.result = some y ∧ y.name = x.name := by simpa [resultName?, hi] using hj
      simp only [declareResults, hi, hy, hxy]
      exact congrArg _ (funext fun _ => ih hjs.symm)

/-- Declarations depend on the names alone. -/
theorem declareBlocks_congr {block : BlockId} {bs cs : List BlockDef}
    {names : LocalNames} (h : bs.map declaredNames = cs.map declaredNames) :
    declareBlocks function block id bs names = declareBlocks function block id cs names := by
  induction bs generalizing block id cs names with
  | nil =>
    obtain rfl := List.map_eq_nil_iff.1 h.symm
    rfl
  | cons b bs ih =>
    obtain ⟨c, cs, rfl, hc, hcs⟩ := List.map_eq_cons_iff.1 h.symm
    obtain ⟨hlabel, hinsts⟩ := Prod.mk.inj hc
    have hlength : b.insts.length = c.insts.length := by simpa using congrArg List.length hinsts.symm
    simp only [declareBlocks, hlabel, declareResults_congr hinsts, hlength, ih hcs.symm]

theorem resolveFunction_erase (names : ModuleNames) (d : FunctionDef) :
    resolveFunction names.erase d.erase = resolveFunction names d := by
  have hnames : (d.blocks.map BlockDef.erase).map declaredNames = d.blocks.map declaredNames := by
    simp only [List.map_map]
    refine List.map_congr_left fun b _ => ?_
    simp [declaredNames, BlockDef.erase, Ident.erase, resultName?, InstDef.erase, Function.comp_def]
  have hblocks (inner : LocalNames) (b : BlockId) (i : InstId) :
      Names.blocks ⟨d.name.name, names.erase, inner⟩ b i (d.blocks.map BlockDef.erase) =
        Names.blocks ⟨d.name.name, names, inner⟩ b i d.blocks :=
    Names.blocks_erase ⟨d.name.name, names, inner⟩ b i d.blocks
  have hparams := declareParams_erase d.name.name names.types 0 d.params .empty
  simp only [resolveFunction, FunctionDef.erase, name_erase, hblocks, declareBlocks_congr hnames,
    List.isEmpty_map]
  simp only [ModuleNames.erase, hparams, typeOrVoid_erase]

theorem resolveGlobal_erase (defs : TypeDefs) (g : GlobalDef) :
    resolveGlobal (TypeDefs.erase defs) ⟨g.name.erase, g.isConstant, g.ty.erase, g.init⟩ =
      resolveGlobal defs g := by
  simp only [resolveGlobal, expandType_erase]
  rfl

theorem addItem_erase (names : ModuleNames) (m : Module) (i : Item) :
    addItem names.erase m i.erase = addItem names m i := by
  cases i with
  | dataLayout s => rfl
  | typeDef t => simp only [Item.erase, addItem, ModuleNames.erase, presentTypes_erase]; rfl
  | globalDef g => simp only [Item.erase, addItem, ModuleNames.erase, resolveGlobal_erase]
  | declare d =>
    simp only [Item.erase, addItem, ModuleNames.erase, presentTypes_erase, typeOrVoid_erase]
    rfl
  | define f => simp only [Item.erase, addItem, resolveFunction_erase]

theorem addItems_erase (names : ModuleNames) (items : List Item) (m : Module) :
    addItems names.erase (items.map Item.erase) m = addItems names items m := by
  induction items generalizing m with
  | nil => rfl
  | cons i items ih => simp only [List.map_cons, addItems, addItem_erase, ih]

theorem declareItem_erase (names : ModuleNames) (i : Item) :
    declareItem names.erase i.erase = ⟨(declareItem names i).value.erase, (declareItem names i).issues⟩ := by
  cases i with
  | dataLayout s => rfl
  | typeDef t =>
    have hcontains : (TypeDefs.erase names.types).contains t.name.name = names.types.contains t.name.name := by
      rw [Table.contains_eq, TypeDefs.erase, Table.find?_mapValues, Option.isSome_map, Table.contains_eq]
    have hinsert : (TypeDefs.erase names.types).insert t.name.name (t.fields.map TypeExpr.erase) =
        TypeDefs.erase (names.types.insert t.name.name t.fields) := Table.insert_mapValues _ _ _ _
    simp only [Item.erase, declareItem, ModuleNames.erase, name_erase, hcontains, hinsert]
    rfl
  | globalDef g => rfl
  | declare d => rfl
  | define f => rfl

theorem declareItems_erase (items : List Item) (names : ModuleNames) :
    declareItems (items.map Item.erase) names.erase =
      ⟨(declareItems items names).value.erase, (declareItems items names).issues⟩ := by
  induction items generalizing names with
  | nil => rfl
  | cons i items ih =>
    show andThen (declareItem names.erase i.erase) (declareItems (items.map Item.erase)) = _
    rw [declareItem_erase, andThen, ih]
    rfl

/-- A tree is resolved wherever its names stand. -/
theorem checkItems_erase (items : List Item) : checkItems (items.map Item.erase) = checkItems items := by
  show andThen (declareItems (items.map Item.erase) (ModuleNames.erase ⟨.empty, .empty, []⟩))
    (fun names => addItems names (items.map Item.erase) ⟨none, [], [], [], []⟩) = _
  rw [declareItems_erase, andThen, addItems_erase]
  rfl

theorem checkItems_congr {items others : List Item} (h : items.map Item.erase = others.map Item.erase) :
    checkItems items = checkItems others := by
  rw [← checkItems_erase items, h, checkItems_erase]

end RangedIR.Scope
