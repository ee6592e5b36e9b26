/-
RangedIR.Proofs.Scope.Acceptance — the sources that are resolved.

Resolution goes on behind an issue with a value that stands in, so whether a source is
accepted is a question about the issues alone. Each step is without issues if and only if its
parts are, and whether a name is defined does not depend on what was found on the way to it.
A source is accepted exactly if it is well-scoped.
-/
import RangedIR.Proofs.Scope.WellScoped

namespace RangedIR.Scope

open Source Relation

/-! ## 1. Checked values without issues -/

namespace Checked

variable {α β : Type} {c : Checked α} {f : α → Checked β}

/-- No issue was found. -/
def IsClean (c : Checked α) : Prop := c.issues = []

theorem IsClean.eq (h : c.IsClean) : c = clean c.value := congrArg (mk c.value) h

theorem isClean_iff : c.IsClean ↔ ∃ a, c = clean a := by
  constructor
  · exact fun h => ⟨c.value, h.eq⟩
  · rintro ⟨a, rfl⟩
    rfl

@[simp] theorem isClean_clean {a : α} : (clean a).IsClean := rfl

@[simp] theorem isClean_pure {a : α} : (pure a : Checked α).IsClean := rfl

@[simp] theorem isClean_bind : (c >>= f).IsClean ↔ c.IsClean ∧ (f c.value).IsClean := List.append_eq_nil_iff

variable {function : Option String} {fault : Fault}

@[simp] theorem not_isClean_tell : ¬ (tell function fault).IsClean :=
  List.cons_ne_nil _ _

@[simp] theorem not_isClean_missing :
    ¬ (missing function fault : Checked (Option α)).IsClean := List.cons_ne_nil _ _

@[simp] theorem isClean_tellIf {test : Bool} :
    (tellIf test function fault).IsClean ↔ test = false := by
  cases test <;> simp [tellIf]

@[simp] theorem value_bind : (c >>= f).value = (f c.value).value := rfl

@[simp] theorem value_pure {a : α} : (pure a : Checked α).value = a := rfl

@[simp] theorem value_each (l : List α) : (each f l).value = l.map fun a => (f a).value := by
  induction l with
  | nil => rfl
  | cons a l ih => simp [each, ih]

@[simp] theorem isClean_each {l : List α} : (each f l).IsClean ↔ ∀ a ∈ l, (f a).IsClean := by
  induction l with
  | nil => simp [each]
  | cons a l ih => simp [each, ih]

theorem isClean_untilMissing {g : α → Checked (Option β)} {l : List α} (h : ∀ a ∈ l, (g a).Settled) :
    (untilMissing g l).IsClean ↔ ∀ a ∈ l, (g a).IsClean := by
  induction l with
  | nil => simp [untilMissing]
  | cons a l ih =>
    obtain ⟨ha, hl⟩ := List.forall_mem_cons.1 h
    simp only [untilMissing, isClean_bind, List.forall_mem_cons]
    refine and_congr_right fun hclean => ?_
    obtain ⟨b, hvalue⟩ := Option.isSome_iff_exists.1 (ha.1 hclean)
    simpa [hvalue] using ih hl

end Checked

open Checked

/-! ## 2. Types -/

section

variable {named : Ident → Checked (Option Ty)} {defs : TypeDefs} {t : TypeExpr} {fuel : Nat} {expanding : List String}
  {n : Ident} {defines : String → List TypeExpr → Prop}

/-- An expression is expanded without issues if the names in it are. -/
theorem isClean_expandWith (hnamed : ∀ n, (named n).Settled) :
    (expandWith named t).IsClean ↔ ∀ n, Mentions t n → (named n).IsClean := by
  induction t using TypeExpr.structural with
  | void | int | float | double =>
    simp only [expandWith, isClean_pure, true_iff]
    rintro n ⟨⟩
  | named n =>
    refine ⟨?_, fun h => h n (.named n)⟩
    rintro h _ ⟨⟩
    exact h
  | ptr t ih =>
    simp only [expandWith, isClean_bind, isClean_pure, and_true, ih]
    exact ⟨fun h n hn => by cases hn with | ptr hn => exact h n hn, fun h n hn => h n (.ptr hn)⟩
  | array length t ih =>
    simp only [expandWith, isClean_bind, isClean_pure, and_true, ih]
    exact ⟨fun h n hn => by cases hn with | array hn => exact h n hn, fun h n hn => h n (.array hn)⟩
  | struct fields ih =>
    simp only [expandWith, isClean_bind, isClean_pure, and_true, expandAllWith_eq_untilMissing]
    rw [isClean_untilMissing fun t _ => settled_expandWith hnamed]
    constructor
    · intro h n hn
      cases hn with
      | struct ht hn => exact (ih _ ht).1 (h _ ht) n hn
    · exact fun h t ht => (ih t ht).2 fun n hn => h n (.struct ht hn)

/-- A name is expanded without issues if it is defined, is not being expanded, and the names in
its definition are. -/
theorem isClean_expandName :
    (expandName defs (fuel + 1) expanding n).IsClean ↔ ∃ fields, defs.find? n.name = some fields ∧ n.name ∉ expanding ∧
      ∀ t ∈ fields, ∀ k, Mentions t k → (expandName defs fuel (n.name :: expanding) k).IsClean := by
  rw [expandName]
  cases defs.find? n.name with
  | none => simp
  | some fields =>
    by_cases hexpanding : n.name ∈ expanding
    · simp [hexpanding]
    · have hstruct := @isClean_expandWith (expandName defs fuel (n.name :: expanding)) (.struct fields)
        (settled_expandName _ _)
      simp only [expandWith, isClean_bind, isClean_pure, and_true] at hstruct
      simp only [List.contains_iff_mem, hexpanding, if_false, isClean_bind, isClean_pure, and_true, hstruct,
        Option.some.injEq, exists_eq_left', not_false_eq_true, true_and]
      constructor
      · exact fun h t ht k hk => h k (.struct ht hk)
      · intro h k hk
        cases hk with
        | struct ht hk => exact h _ ht k hk

variable (hdefs : ∀ x fields, defs.find? x = some fields ↔ defines x fields)

include hdefs

/-- Whatever the expansion of a name reaches is expanded on the way. -/
theorem isClean_of_reached {y : String} (h : (expandName defs fuel expanding n).IsClean)
    (hy : ReflTransGen (Expands defines) n.name y) :
    ∃ fuel' expanding' k, k.name = y ∧ (expandName defs fuel' expanding' k).IsClean ∧ expanding ⊆ expanding' := by
  induction hy with
  | refl => exact ⟨fuel, expanding, n, rfl, h, List.Subset.refl _⟩
  | tail _ hstep ih =>
    obtain ⟨fuel', expanding', k, rfl, hclean, hsub⟩ := ih
    obtain ⟨fields, hfields, t, ht, k', hk', rfl⟩ := hstep
    cases fuel' with
    | zero => simp [expandName] at hclean
    | succ fuel' =>
      obtain ⟨_, hfind, -, hall⟩ := isClean_expandName.1 hclean
      cases ((hdefs _ _).2 hfields).symm.trans hfind
      exact ⟨fuel', _, k', rfl, hall t ht k' hk', List.subset_cons_of_subset _ hsub⟩

theorem grounded_of_isClean (h : (expandName defs fuel expanding n).IsClean) : Grounded defines n.name := by
  cases fuel with
  | zero => simp [expandName] at h
  | succ fuel =>
    obtain ⟨fields, hfind, -, hall⟩ := isClean_expandName.1 h
    refine ⟨⟨fields, (hdefs _ _).1 hfind⟩, fun hcycle => ?_⟩
    -- one step further the name is being expanded, and stays so on the way back to it
    obtain ⟨z, ⟨_, hfields, t, ht, k, hk, rfl⟩, hback⟩ := TransGen.head'_iff.1 hcycle
    cases ((hdefs _ _).2 hfields).symm.trans hfind
    obtain ⟨fuel', expanding', k', hname, hclean, hsub⟩ := isClean_of_reached hdefs (hall t ht k hk) hback
    cases fuel' with
    | zero => simp [expandName] at hclean
    | succ fuel' =>
      obtain ⟨-, -, hnot, -⟩ := isClean_expandName.1 hclean
      rw [hname] at hnot
      exact hnot (hsub List.mem_cons_self)

/-- Names that are being expanded lead to the name that is expanded now, so none of them is met
again, and there are no more of them than definitions. -/
theorem isClean_of_grounded (hground : ∀ y, ReflTransGen (Expands defines) n.name y → Grounded defines y)
    (hlead : ∀ x ∈ expanding, TransGen (Expands defines) x n.name) (hnodup : expanding.Nodup)
    (hfuel : defs.size < fuel + expanding.length) : (expandName defs fuel expanding n).IsClean := by
  induction fuel generalizing n expanding with
  | zero =>
    have hsub : expanding ⊆ defs.keys := by
      intro x hx
      obtain ⟨y, ⟨fields, hfields, -⟩, -⟩ := TransGen.head'_iff.1 (hlead x hx)
      rw [Table.mem_keys, Table.contains_eq, (hdefs x fields).2 hfields]
      rfl
    have hlength := (List.subperm_of_subset hnodup hsub).length_le
    rw [Table.keys, List.length_map] at hlength
    rw [Table.size] at hfuel
    omega
  | succ fuel ih =>
    obtain ⟨⟨fields, hfields⟩, hacyclic⟩ := hground n.name .refl
    have hfresh : n.name ∉ expanding := fun hmem => hacyclic (hlead _ hmem)
    refine isClean_expandName.2 ⟨fields, (hdefs _ _).2 hfields, hfresh, fun t ht k hk => ?_⟩
    have hstep : Expands defines n.name k.name := ⟨fields, hfields, t, ht, k, hk, rfl⟩
    refine ih (fun y hy => hground y (.head hstep hy)) ?_ (List.nodup_cons.2 ⟨hfresh, hnodup⟩) ?_
    · refine List.forall_mem_cons.2 ⟨.single hstep, fun x hx => ?_⟩
      exact (hlead x hx).tail hstep
    · rw [List.length_cons]
      omega

/-- A type is expanded without issues if every name that it leads to is defined and does not
lead to itself. -/
theorem isClean_expandType :
    (expandType defs t).IsClean ↔
      ∀ n, Mentions t n → ∀ y, ReflTransGen (Expands defines) n.name y → Grounded defines y := by
  rw [expandType, isClean_expandWith (settled_expandName _ _)]
  refine forall₂_congr fun n _ => ⟨fun h y hy => ?_, fun h => ?_⟩
  · obtain ⟨_, _, k, rfl, hclean, -⟩ := isClean_of_reached hdefs h hy
    exact grounded_of_isClean hdefs hclean
  · refine isClean_of_grounded hdefs h (by simp) List.nodup_nil ?_
    rw [List.length_nil]
    omega

omit hdefs

@[simp] theorem isClean_typeOrVoid : (typeOrVoid defs t).IsClean ↔ (expandType defs t).IsClean := by
  simp [typeOrVoid]

@[simp] theorem isClean_presentTypes {ts : List TypeExpr} :
    (presentTypes defs ts).IsClean ↔ ∀ t ∈ ts, (expandType defs t).IsClean := by
  simp [presentTypes]

theorem expandType_of_isClean (h : (expandType defs t).IsClean) :
    expandType defs t = clean (some (typeOrVoid defs t).value) :=
  typeOrVoid_eq_clean.1 (isClean_typeOrVoid.2 h).eq

/-- The type that is meant by one that is written: a name is an aggregate under this name, with
its fields as they are meant. -/
inductive Stands (defs : TypeDefs) : TypeExpr → Ty → Prop
  | void : Stands defs .void .void
  | int (bits : Nat) : Stands defs (.int bits) (.int bits)
  | float : Stands defs .float .float
  | double : Stands defs .double .double
  | named {n : Ident} {fields : List TypeExpr} {tys : List Ty} : defs.find? n.name = some fields →
    List.Forall₂ (Stands defs) fields tys → Stands defs (.named n) (.struct (some n.name) tys)
  | ptr {t : TypeExpr} {ty : Ty} : Stands defs t ty → Stands defs (.ptr t) (.ptr ty)
  | array {length : Nat} {t : TypeExpr} {ty : Ty} : Stands defs t ty → Stands defs (.array length t) (.array length ty)
  | struct {fields : List TypeExpr} {tys : List Ty} : List.Forall₂ (Stands defs) fields tys →
    Stands defs (.struct fields) (.struct none tys)

variable {ty : Ty}

theorem stands_of_expandWith (h : ∀ n ty, named n = clean (some ty) → Stands defs (.named n) ty)
    (hty : expandWith named t = clean (some ty)) : Stands defs t ty := by
  induction t using TypeExpr.structural generalizing ty with
  | void | int | float | double =>
    obtain rfl : _ = ty := by simpa [expandWith] using hty
    constructor
  | named n => exact h n ty hty
  | ptr t ih =>
    obtain ⟨u, hu, rfl⟩ := expandWith_ptr.1 hty
    exact .ptr (ih hu)
  | array length t ih =>
    obtain ⟨u, hu, rfl⟩ := expandWith_array.1 hty
    exact .array (ih hu)
  | struct fields ih =>
    obtain ⟨tys, htys, rfl⟩ := expandWith_struct.1 hty
    exact .struct (((List.forall₂_and_left _ _).2 ⟨@ih, htys⟩).imp fun _ _ h => h.1 h.2)

theorem stands_of_expandName (h : expandName defs fuel expanding n = clean (some ty)) :
    Stands defs (.named n) ty := by
  induction fuel generalizing n expanding ty with
  | zero => simp [expandName] at h
  | succ fuel ih =>
    obtain ⟨fields, tys, hfind, -, htys, rfl⟩ := expandName_eq_clean.1 h
    exact .named hfind (htys.imp fun _ _ => stands_of_expandWith fun _ _ => ih)

theorem stands_of_expandType (h : expandType defs t = clean (some ty)) : Stands defs t ty :=
  stands_of_expandWith (fun _ _ => stands_of_expandName) h

theorem Stands.isFloating (h : Stands defs t ty) : ty.isFloating = t.isFloating := by
  cases h <;> rfl

end

/-! ## 3. Values -/

theorem isClean_resolveLiteral {function : Option String} {l : Literal} {defs : TypeDefs} {t : TypeExpr} {ty : Ty}
    (h : expandType defs t = clean (some ty)) : (resolveLiteral function l ty).IsClean ↔ l.AllowedAt t := by
  cases l with
  | int v => simp [resolveLiteral, Literal.AllowedAt]
  | bool b => simp [resolveLiteral, Literal.AllowedAt]
  | float x =>
    rw [resolveLiteral, Literal.AllowedAt, ← (stands_of_expandType h).isFloating]
    cases ty.isFloating <;> simp

/-- The names of a module are those of its items. -/
structure Covers (names : ModuleNames) (items : List Item) : Prop where
  types : ∀ x fields, names.types.find? x = some fields ↔ Defines items x fields
  globals : ∀ x, names.globals.contains x = true ↔ x ∈ items.filterMap globalName?
  callees : ∀ x, names.callees.contains x = true ↔ x ∈ items.filterMap callee?

/-- Names of values stand for instructions and parameters, never for a known number. -/
def Unknown (values : Table String Operand) : Prop := values.All fun _ op => literalIndex? op = none

/-- The names of a function are those of its definition. -/
structure Knows (n : Names) (items : List Item) (d : FunctionDef) : Prop where
  outer : Covers n.outer items
  values : ∀ x, n.inner.values.contains x = true ↔ x ∈ d.valueNames
  labels : ∀ x, n.inner.labels.contains x = true ↔ x ∈ d.labelNames
  unknown : Unknown n.inner.values

namespace Knows

variable {n : Names} {items : List Item} {d : FunctionDef} (h : Knows n items d)

include h

theorem value {t : TypeExpr} {v : ValueExpr} (ht : (n.type t).IsClean) :
    (n.value v (n.type t).value).IsClean ↔ (Typed.mk t v).InScope items d := by
  cases v with
  | loc x =>
    show _ ↔ x.name ∈ d.valueNames
    rw [← h.values, Table.contains_eq, Names.value]
    cases n.inner.values.find? x.name <;> simp [Names.tell]
  | glob g =>
    show _ ↔ g.name ∈ items.filterMap globalName?
    rw [← h.outer.globals, Table.contains_eq, Names.value]
    cases n.outer.globals.find? g.name <;> simp [Names.tell]
  | lit l =>
    have hty := expandType_of_isClean (isClean_typeOrVoid.1 ht)
    refine Iff.trans ?_ (@isClean_resolveLiteral (some n.function) l _ _ _ hty)
    simp only [Names.value, isClean_bind]
    refine and_iff_left ?_
    split <;> rfl
  | undef => exact iff_of_true rfl trivial

theorem typed {t : Typed} : (n.typed t).IsClean ↔ (n.type t.ty).IsClean ∧ t.InScope items d := by
  simp only [Names.typed, isClean_bind, isClean_pure, and_true]
  exact and_congr_right h.value

theorem label {l : Ident} : (n.label l).IsClean ↔ l.name ∈ d.labelNames := by
  rw [← h.labels, Table.contains_eq, Names.label]
  cases n.inner.labels.find? l.name <;> simp [Names.tell]

end Knows

/-! ## 4. Index paths -/

section

variable {defs : TypeDefs} {defines : String → List TypeExpr → Prop}

/-- Related lists have related members at each place. -/
theorem rel_getElem? {α β : Type} {R : α → β → Prop} {l : List α} {l' : List β} (h : List.Forall₂ R l l') (k : Nat) :
    Option.Rel R l[k]? l'[k]? := by
  induction h generalizing k with
  | nil => exact .none
  | cons hhead _ ih =>
    cases k with
    | zero => exact .some hhead
    | succ k => exact ih k

variable {i : Option Int} {path : List (Option Int)}

theorem leads_struct {fields : List TypeExpr} :
    Leads defines (.struct fields) (i :: path) ↔
      ∃ k : Nat, i = some (k : Int) ∧ ∃ t, fields[k]? = some t ∧ Leads defines t path := by
  constructor
  · rintro (_ | _ | ⟨ht, hpath⟩)
    exact ⟨_, rfl, _, ht, hpath⟩
  · rintro ⟨k, rfl, t, ht, hpath⟩
    exact .struct ht hpath

theorem leads_named {n : Ident} :
    Leads defines (.named n) (i :: path) ↔ ∃ fields, defines n.name fields ∧ Leads defines (.struct fields) (i :: path) := by
  constructor
  · rintro (_ | _ | _ | ⟨hfields, hpath⟩)
    exact ⟨_, hfields, hpath⟩
  · rintro ⟨fields, hfields, hpath⟩
    exact .named hfields hpath

/-- A step into an aggregate takes a known number of a field. -/
theorem isSome_indexInto_struct {name : Option String} {tys : List Ty} {f : Ty → Option Ty} :
    ((Ty.struct name tys).indexInto i >>= f).isSome = true ↔
      ∃ k : Nat, i = some (k : Int) ∧ ∃ ty, tys[k]? = some ty ∧ (f ty).isSome = true := by
  match i with
  | none => simp [Ty.indexInto]
  | some (.negSucc k) => simp [Ty.indexInto]
  | some (.ofNat k) => cases htys : tys[k]? <;> simp [Ty.indexInto, htys]

variable (hdefs : ∀ x fields, defs.find? x = some fields ↔ defines x fields)

include hdefs

/-- A path leads into a type as written if it leads into the type that is meant. -/
theorem isSome_foldlM_indexInto {fuel : Nat} {expanding : List String} {t : TypeExpr} {ty : Ty}
    (hty : expandWith (expandName defs fuel expanding) t = clean (some ty)) (path : List (Option Int)) :
    (path.foldlM Ty.indexInto ty).isSome = true ↔ Leads defines t path := by
  induction path generalizing fuel expanding t ty with
  | nil => exact iff_of_true rfl (.done t)
  | cons i path ih =>
    have hfields {fuel : Nat} {expanding : List String} {fields : List TypeExpr} {tys : List Ty} {name : Option String}
        (h : List.Forall₂ (fun t ty => expandWith (expandName defs fuel expanding) t = clean (some ty)) fields tys) :
        ((i :: path).foldlM Ty.indexInto (.struct name tys)).isSome = true ↔ Leads defines (.struct fields) (i :: path) := by
      rw [List.foldlM_cons, isSome_indexInto_struct, leads_struct]
      refine exists_congr fun k => and_congr_right fun _ => ?_
      generalize hk : fields[k]? = o, hk' : tys[k]? = o'
      obtain ⟨hty⟩ | ⟨⟩ := hk ▸ hk' ▸ rel_getElem? h k
      · simpa using ih hty
      · simp
    cases t with
    | void | int | float | double =>
      obtain rfl : _ = ty := by simpa [expandWith] using hty
      refine iff_of_false (by simp [Ty.indexInto]) ?_
      rintro ⟨⟩
    | ptr t =>
      obtain ⟨u, -, rfl⟩ := expandWith_ptr.1 hty
      refine iff_of_false (by simp [Ty.indexInto]) ?_
      rintro ⟨⟩
    | array length t =>
      obtain ⟨u, hu, rfl⟩ := expandWith_array.1 hty
      refine (ih hu).trans ⟨.array, ?_⟩
      rintro (_ | hpath)
      exact hpath
    | struct fields =>
      obtain ⟨tys, htys, rfl⟩ := expandWith_struct.1 hty
      exact hfields htys
    | named n =>
      cases fuel with
      | zero => simp [expandWith, expandName] at hty
      | succ fuel =>
        obtain ⟨fields, tys, hfind, -, htys, rfl⟩ := expandName_eq_clean.1 hty
        rw [leads_named, hfields htys]
        refine ⟨fun hpath => ⟨fields, (hdefs _ _).1 hfind, hpath⟩, ?_⟩
        rintro ⟨_, hfields', hpath⟩
        cases ((hdefs _ _).2 hfields').symm.trans hfind
        exact hpath

end

variable {n : Names} {items : List Item} {d : FunctionDef}

/-- What is known of an index as it is written is known of the operand. -/
theorem Knows.literalIndex? (h : Knows n items d) {t : Typed}
    (ht : (n.type t.ty).IsClean) : Scope.literalIndex? (n.typed t).value.2 = t.index? := by
  obtain ⟨ty, v⟩ := t
  show Scope.literalIndex? (n.value v (n.type ty).value).value = _
  cases v with
  | loc x =>
    rw [Names.value]
    cases hx : n.inner.values.find? x.name with
    | none => rfl
    | some op => exact h.unknown.find? hx
  | glob g =>
    rw [Names.value]
    cases n.outer.globals.find? g.name <;> rfl
  | undef => rfl
  | lit l =>
    cases l with
    | bool b => rfl
    | float x =>
      simp only [Names.value, resolveLiteral]
      split_ifs <;> rfl
    | int i =>
      have hty := expandType_of_isClean (isClean_typeOrVoid.1 ht)
      change expandType _ _ = clean (some (n.type ty).value) at hty
      generalize (n.type ty).value = ty' at hty ⊢
      cases stands_of_expandType hty with
      | int bits => rcases bits with _ | _ | _ <;> rfl
      | _ => rfl

/-- An index path is taken without issues if it leads into the type. -/
theorem Knows.path (h : Knows n items d) {source : TypeExpr}
    {indices : List Typed} (hsource : (n.type source).IsClean) (hindices : ∀ t ∈ indices, (n.type t.ty).IsClean) :
    (elementType? (n.type source).value (indices.map fun t => (n.typed t).value)).isSome = true ↔
      Leads (Defines items) source ((indices.drop 1).map Typed.index?) := by
  have hpath : (indices.drop 1).map Typed.index? =
      ((indices.drop 1).map fun t => (n.typed t).value).map fun tv => Scope.literalIndex? tv.2 := by
    rw [List.map_map]
    refine List.map_congr_left fun t ht => ?_
    exact (h.literalIndex? (hindices t (List.mem_of_mem_drop ht))).symm
  rw [← isSome_foldlM_indexInto h.outer.types (expandType_of_isClean (isClean_typeOrVoid.1 hsource)), hpath, elementType?,
    List.map_drop, List.foldlM_map]
  rfl

/-! ## 5. Instructions -/

section

variable {n : Names} {items : List Item} {d : FunctionDef} {e : InstExpr}

attribute [local simp] Names.instruction InstExpr.types InstExpr.uses InstExpr.labels InstExpr.callee? InstExpr.path?
  InstExpr.inScope_iff

/-- An instruction is resolved without issues if its types are, and if it refers to what is there. -/
theorem Knows.instruction (h : Knows n items d) :
    (n.instruction e).IsClean ↔ (∀ t ∈ e.types, (n.type t).IsClean) ∧ e.InScope items d := by
  cases e with
  | binary op ty lhs rhs | icmp op ty lhs rhs | fcmp op ty lhs rhs => simp +contextual [h.value]
  | fneg ty v => simp +contextual [h.value]
  | cast op src v dst | bitcast src v dst =>
    simp +contextual [h.value, and_assoc, and_comm]
  | alloca ty align => simp
  | load ty ptr align => simp [h.typed, and_assoc]
  | store v ptr align => simpa [h.typed] using and_and_and_comm
  | ret v => cases v <;> simp [h.typed]
  | elementPtr inbounds source base indices =>
    simp only [Names.instruction, isClean_bind, isClean_each, value_each, h.typed, forall₂_and]
    have hlast := @Knows.path _ _ _ h source indices
    constructor
    · rintro ⟨hsource, ⟨hbase, hbaseValue⟩, ⟨hindices, hvalues⟩, hpath⟩
      refine ⟨?_, List.forall_mem_cons.2 ⟨hbaseValue, hvalues⟩, by simp [InstExpr.labels], by simp [InstExpr.callee?], ?_⟩
      · exact List.forall_mem_cons.2 ⟨hsource, List.forall_mem_cons.2 ⟨hbase, List.forall_mem_map.2 hindices⟩⟩
      · rintro _ _ ⟨⟩
        refine (hlast hsource hindices).1 ?_
        revert hpath
        cases elementType? (n.type source).value (indices.map fun t => (n.typed t).value) <;> simp [Names.tell]
    · rintro ⟨htypes, huses, -, -, hpath⟩
      obtain ⟨hsource, hbase, hindices⟩ : _ ∧ _ ∧ _ := by simpa [InstExpr.types] using htypes
      obtain ⟨hbaseValue, hvalues⟩ := List.forall_mem_cons.1 huses
      refine ⟨hsource, ⟨hbase, hbaseValue⟩, ⟨hindices, hvalues⟩, ?_⟩
      have hsome := (hlast hsource hindices).2 (hpath _ _ rfl)
      revert hsome
      cases elementType? (n.type source).value (indices.map fun t => (n.typed t).value) <;> simp
  | call ret callee args =>
    simp only [Names.instruction, isClean_bind, isClean_pure, and_true, isClean_each, isClean_tellIf, h.typed,
      Bool.and_eq_false_iff, Bool.not_eq_false', h.outer.callees, forall₂_and]
    constructor
    · rintro ⟨hcallee, hret, htypes, hvalues⟩
      refine ⟨List.forall_mem_cons.2 ⟨hret, List.forall_mem_map.2 htypes⟩, hvalues, by simp [InstExpr.labels], ?_,
        by simp [InstExpr.path?]⟩
      rintro _ ⟨⟩
      exact hcallee
    · rintro ⟨htypes, hvalues, -, hcallee, -⟩
      obtain ⟨hret, htypes⟩ : _ ∧ _ := by simpa [InstExpr.types] using htypes
      exact ⟨hcallee callee rfl, hret, htypes, hvalues⟩
  | br target => simp [h.label]
  | condBr c thenLabel elseLabel =>
    have hc : (n.value c (.int 1)).IsClean ↔ _ := @Knows.value _ _ _ h (.int 1) c rfl
    simp [h.label, hc]
  | phi ty incoming =>
    simp only [Names.instruction, isClean_bind, isClean_pure, and_true, isClean_each, h.label, forall₂_and,
      InstExpr.inScope_iff, InstExpr.uses, InstExpr.labels, List.forall_mem_map]
    simp +contextual [h.value]

end

/-! ## 6. Declarations of a function -/

section

variable {ν : Type}

/-- The second table has all keys of the first one and some names more. -/
def Adds (before after : Table String ν) (names : List String) : Prop :=
  ∀ x, after.contains x = true ↔ before.contains x = true ∨ x ∈ names

/-- Names that are distinct and not in a table. -/
def Fresh (t : Table String ν) (names : List String) : Prop := names.Nodup ∧ ∀ x ∈ names, t.contains x = false

variable {t t' t'' : Table String ν} {xs ys : List String}

theorem Adds.refl : Adds t t [] := by simp [Adds]

theorem adds_insert (x : String) (v : ν) : Adds t (t.insert x v) [x] := by
  intro y
  by_cases hy : x = y
  · simp [hy]
  · simp [hy, Ne.symm hy]

theorem Adds.trans (h : Adds t t' xs) (h' : Adds t' t'' ys) : Adds t t'' (xs ++ ys) := by
  intro x
  rw [h' x, h x, List.mem_append, or_assoc]

theorem Adds.mem_of_empty (h : Adds .empty t xs) (x : String) : t.contains x = true ↔ x ∈ xs := by
  simpa using h x

theorem Adds.fresh_append (h : Adds t t' xs) : Fresh t (xs ++ ys) ↔ Fresh t xs ∧ Fresh t' ys := by
  simp only [Fresh, List.nodup_append', List.forall_mem_append, Bool.eq_false_iff, ne_eq, h _, not_or, forall₂_and]
  constructor
  · rintro ⟨⟨hxs, hys, hdisjoint⟩, hx, hy⟩
    exact ⟨⟨hxs, hx⟩, hys, hy, fun y hy hy' => hdisjoint hy' hy⟩
  · rintro ⟨⟨hxs, hx⟩, hys, hy, hdisjoint⟩
    exact ⟨⟨hxs, hys, fun x hx hx' => hdisjoint x hx' hx⟩, hx, hy⟩

theorem fresh_cons (x : String) (v : ν) : Fresh t (x :: xs) ↔ t.contains x = false ∧ Fresh (t.insert x v) xs := by
  rw [← List.singleton_append, (adds_insert x v).fresh_append]
  simp [Fresh]

theorem fresh_empty : Fresh (.empty : Table String ν) xs ↔ xs.Nodup := by simp [Fresh]

end

section

variable {function : String} {types : TypeDefs} {values : Table String Operand}

/-- Parameters are entered under their names. -/
theorem adds_declareParams (index : Nat) (ps : List (TypeExpr × Ident)) :
    Adds values (declareParams function types index ps values).value.1 (ps.map (·.2.name)) := by
  induction ps generalizing index values with
  | nil => exact .refl
  | cons p ps ih => exact (adds_insert p.2.name (.arg index)).trans (ih (index + 1))

theorem isClean_declareParams {index : Nat} {ps : List (TypeExpr × Ident)} :
    (declareParams function types index ps values).IsClean ↔
      (∀ p ∈ ps, (expandType types p.1).IsClean) ∧ Fresh values (ps.map (·.2.name)) := by
  induction ps generalizing index values with
  | nil => simp [declareParams, Fresh]
  | cons p ps ih =>
    simp only [declareParams, isClean_bind, isClean_typeOrVoid, isClean_tellIf, isClean_pure, and_true, ih,
      List.forall_mem_cons, List.map_cons, fresh_cons p.2.name (Operand.arg index), and_assoc]
    exact and_congr_right fun _ => and_left_comm

/-- Results are entered under their names. -/
theorem adds_declareResults (id : InstId) (is : List InstDef) :
    Adds values (declareResults function id is values).value (is.filterMap resultName?) := by
  induction is generalizing id values with
  | nil => exact .refl
  | cons i is ih =>
    cases hresult : i.result with
    | none =>
      rw [declareResults, hresult, List.filterMap_cons_none (by rw [resultName?, hresult]; rfl)]
      exact ih (id + 1)
    | some x =>
      rw [declareResults, hresult, List.filterMap_cons_some (b := x.name) (by rw [resultName?, hresult]; rfl)]
      exact (adds_insert x.name (.inst id)).trans (ih (id + 1))

variable {id : InstId}

theorem isClean_declareResults {is : List InstDef} :
    (declareResults function id is values).IsClean ↔ Fresh values (is.filterMap resultName?) := by
  induction is generalizing id values with
  | nil => simp [declareResults, Fresh]
  | cons i is ih =>
    cases hresult : i.result with
    | none =>
      rw [declareResults, hresult, List.filterMap_cons_none (by rw [resultName?, hresult]; rfl)]
      exact ih
    | some x =>
      rw [declareResults, hresult, List.filterMap_cons_some (b := x.name) (by rw [resultName?, hresult]; rfl),
        fresh_cons x.name (.inst id), ← ih, isClean_bind, isClean_tellIf]

variable {names : LocalNames}

/-- Labels and results are entered under their names. -/
theorem adds_declareBlocks (block : BlockId) (id : InstId) (bs : List BlockDef) :
    Adds names.values (declareBlocks function block id bs names).value.values
        ((bs.flatMap (·.insts)).filterMap resultName?) ∧
      Adds names.labels (declareBlocks function block id bs names).value.labels (bs.map (·.label.name)) := by
  induction bs generalizing block id names with
  | nil => exact ⟨.refl, .refl⟩
  | cons b bs ih =>
    rw [List.flatMap_cons, List.filterMap_append]
    exact ⟨(adds_declareResults id b.insts).trans (ih _ _).1, (adds_insert b.label.name block).trans (ih _ _).2⟩

theorem isClean_declareBlocks {block : BlockId} {bs : List BlockDef} :
    (declareBlocks function block id bs names).IsClean ↔
      Fresh names.values ((bs.flatMap (·.insts)).filterMap resultName?) ∧ Fresh names.labels (bs.map (·.label.name)) := by
  induction bs generalizing block id names with
  | nil => simp [declareBlocks, Fresh]
  | cons b bs ih =>
    have hresults := @adds_declareResults function names.values id b.insts
    simp only [declareBlocks, isClean_bind, isClean_tellIf, isClean_declareResults, ih]
    rw [List.flatMap_cons, List.filterMap_append, hresults.fresh_append, List.map_cons, fresh_cons b.label.name block,
      and_and_and_comm, ← and_assoc, and_comm (a := _ = false)]

theorem unknown_declareParams (h : Unknown values) (index : Nat) (ps : List (TypeExpr × Ident)) :
    Unknown (declareParams function types index ps values).value.1 := by
  induction ps generalizing index values with
  | nil => exact h
  | cons p ps ih => exact ih (h.insert rfl) (index + 1)

theorem unknown_declareResults (h : Unknown values) (id : InstId) (is : List InstDef) :
    Unknown (declareResults function id is values).value := by
  induction is generalizing id values with
  | nil => exact h
  | cons i is ih =>
    rw [declareResults]
    cases i.result with
    | none => exact ih h (id + 1)
    | some x => exact ih (h.insert rfl) (id + 1)

theorem unknown_declareBlocks (h : Unknown names.values) (block : BlockId) (id : InstId) (bs : List BlockDef) :
    Unknown (declareBlocks function block id bs names).value.values := by
  induction bs generalizing block id names with
  | nil => exact h
  | cons b bs ih => exact @ih ⟨_, _⟩ (unknown_declareResults h id b.insts) _ _

end

theorem isClean_blocks {n : Names} {block : BlockId} {id : InstId} {bs : List BlockDef} :
    (n.blocks block id bs).IsClean ↔ ∀ i ∈ bs.flatMap (·.insts), (n.instruction i.kind).IsClean := by
  induction bs generalizing block id with
  | nil => simp [Names.blocks]
  | cons b bs ih => simp [Names.blocks, Names.inst, ih, or_imp, forall_and]

/-- A function is resolved without issues if its types are and if it is well-scoped. -/
theorem isClean_resolveFunction {outer : ModuleNames} {items : List Item} (h : Covers outer items) {d : FunctionDef} :
    (resolveFunction outer d).IsClean ↔ (∀ t ∈ d.types, (expandType outer.types t).IsClean) ∧ d.WellScoped items := by
  generalize hvalues : (declareParams d.name.name outer.types 0 d.params .empty).value.1 = values
  generalize hinner : (declareBlocks d.name.name 0 0 d.blocks ⟨values, .empty⟩).value = inner
  have hparams : Adds .empty values (d.params.map (·.2.name)) := hvalues ▸ adds_declareParams 0 d.params
  obtain ⟨hresults, hlabels⟩ := hinner ▸ @adds_declareBlocks d.name.name ⟨values, .empty⟩ 0 0 d.blocks
  have hunknown : Unknown values := hvalues ▸ unknown_declareParams Table.all_empty 0 d.params
  have hinnerUnknown := hinner ▸ @unknown_declareBlocks d.name.name ⟨values, .empty⟩ hunknown 0 0 d.blocks
  have hknows : Knows ⟨d.name.name, outer, inner⟩ items d :=
    ⟨h, (hparams.trans hresults).mem_of_empty, hlabels.mem_of_empty, hinnerUnknown⟩
  have hnodup : d.valueNames.Nodup ↔ _ := fresh_empty.symm.trans hparams.fresh_append
  simp only [resolveFunction, isClean_bind, isClean_declareParams, isClean_tellIf, hvalues, isClean_declareBlocks, hinner,
    isClean_blocks, hknows.instruction, isClean_typeOrVoid, isClean_pure, and_true, fresh_empty]
  constructor
  · rintro ⟨⟨hparamTypes, hparamNames⟩, hblocks, ⟨hresultNames, hlabelNames⟩, hinsts, hret⟩
    refine ⟨?_, by simpa using hblocks, hlabelNames, hnodup.2 ⟨fresh_empty.2 hparamNames, hresultNames⟩,
      fun i hi => (hinsts i hi).2⟩
    refine List.forall_mem_append.2 ⟨List.forall_mem_cons.2 ⟨hret, List.forall_mem_map.2 hparamTypes⟩, fun t ht => ?_⟩
    obtain ⟨i, hi, ht⟩ := List.mem_flatMap.1 ht
    exact isClean_typeOrVoid.1 ((hinsts i hi).1 t ht)
  · rintro ⟨htypes, hblocks, hlabelNames, hvalueNames, hinsts⟩
    obtain ⟨hhead, hinstTypes⟩ := List.forall_mem_append.1 htypes
    obtain ⟨hret, hparamTypes⟩ := List.forall_mem_cons.1 hhead
    obtain ⟨hparamNames, hresultNames⟩ := hnodup.1 hvalueNames
    refine ⟨⟨fun p hp => hparamTypes _ (List.mem_map_of_mem hp), fresh_empty.1 hparamNames⟩, by simpa using hblocks,
      ⟨hresultNames, hlabelNames⟩, fun i hi => ⟨fun t ht => ?_, hinsts i hi⟩, hret⟩
    exact isClean_typeOrVoid.2 (hinstTypes t (List.mem_flatMap.2 ⟨i, hi, ht⟩))

/-! ## 7. Items -/

section

variable {types : TypeDefs}

theorem isClean_resolveInit {name : String} {t : TypeExpr} {ty : Ty} (h : expandType types t = clean (some ty))
    {init : GlobalInitExpr} : (resolveInit name ty init).IsClean ↔ init.Fits t := by
  cases init with
  | scalar l =>
    simp only [resolveInit, isClean_bind, isClean_pure, and_true]
    exact isClean_resolveLiteral h
  | array ls =>
    cases stands_of_expandType h with
    | @array length element u =>
      obtain ⟨_, hu, ⟨⟩⟩ := expandWith_array.1 h
      have hls := @isClean_untilMissing _ _ (resolveLiteral none · u) ls fun l _ => settled_resolveLiteral
      simp only [isClean_resolveLiteral hu] at hls
      simp only [resolveInit, GlobalInitExpr.Fits, TypeExpr.array.injEq]
      split_ifs with hlength
      · simp [Ne.symm hlength]
      · simp only [isClean_bind, hls, isClean_pure, and_true]
        constructor
        · exact fun hall => ⟨element, ⟨(not_ne_iff.1 hlength).symm, rfl⟩, hall⟩
        · rintro ⟨_, ⟨-, rfl⟩, hall⟩
          exact hall
    | _ => exact iff_of_false not_isClean_missing (by simp [GlobalInitExpr.Fits])

theorem isClean_resolveGlobal {g : GlobalDef} :
    (resolveGlobal types g).IsClean ↔ (expandType types g.ty).IsClean ∧ g.init.Fits g.ty := by
  simp only [resolveGlobal, isClean_bind]
  refine and_congr_right fun hty => ?_
  have hsome := expandType_of_isClean hty
  rw [hsome]
  simp only [clean, isClean_bind, isClean_pure, and_true]
  exact isClean_resolveInit hsome

variable {names : ModuleNames} {items : List Item}

variable {m : Module}

theorem isClean_addItem (h : Covers names items) {i : Item} :
    (addItem names m i).IsClean ↔ (∀ t ∈ i.types, (expandType names.types t).IsClean) ∧
      (∀ g, i = .globalDef g → g.init.Fits g.ty) ∧ ∀ d, i = .define d → d.WellScoped items := by
  cases i with
  | dataLayout s => simp [addItem, Item.types]
  | typeDef t => simp [addItem, Item.types]
  | globalDef g => simp [addItem, Item.types, isClean_resolveGlobal]
  | declare d => simp [addItem, Item.types]
  | define d => simp [addItem, Item.types, isClean_resolveFunction h]

theorem isClean_addItems (h : Covers names items) {is : List Item} :
    (addItems names is m).IsClean ↔ ∀ i ∈ is, (∀ t ∈ i.types, (expandType names.types t).IsClean) ∧
      (∀ g, i = .globalDef g → g.init.Fits g.ty) ∧ ∀ d, i = .define d → d.WellScoped items := by
  induction is generalizing m with
  | nil => simp [addItems]
  | cons i is ih => simp only [addItems, isClean_bind, isClean_addItem h, ih, List.forall_mem_cons]

end

/-! ## 8. Sources -/

section

variable {items : List Item}

theorem distinct_ofItems :
    (ModuleNames.ofItems items).Distinct ↔ ((items.filterMap typeDef?).map (·.name.name)).Nodup ∧
      (items.filterMap globalName?).Nodup ∧ (items.filterMap callee?).Nodup := by
  have hkeys : (ModuleNames.ofItems items).types.keys = (items.filterMap typeDef?).map (·.name.name) ∧
      (ModuleNames.ofItems items).globals.keys = items.filterMap globalName? ∧
      (ModuleNames.ofItems items).callees = (items.filterMap callee?).reverse := by
    simp [ofItems_eq, Table.keys, Function.comp_def]
  obtain ⟨htypes, hglobals, hcallees⟩ := hkeys
  constructor
  · rintro ⟨h, h', h''⟩
    exact ⟨htypes ▸ h, hglobals ▸ h', List.nodup_reverse.1 (hcallees ▸ h'')⟩
  · rintro ⟨h, h', h''⟩
    exact ⟨htypes ▸ h, hglobals ▸ h', hcallees ▸ List.nodup_reverse.2 h''⟩

theorem covers_ofItems (h : (ModuleNames.ofItems items).Distinct) : Covers (.ofItems items) items := by
  refine ⟨fun x fields => ?_, fun x => ?_, fun x => ?_⟩
  · rw [Table.find?_eq_some_iff h.types, ofItems_eq]
    simp [Defines]
  · rw [← Table.mem_keys, ofItems_eq]
    simp [Table.keys]
  · rw [ofItems_eq]
    simp

theorem isClean_checkItems :
    (checkItems items).IsClean ↔ (ModuleNames.ofItems items).Distinct ∧
      (addItems (.ofItems items) items ⟨none, [], [], [], []⟩).IsClean := by
  constructor
  · intro h
    obtain ⟨hdistinct, es, hes, -⟩ := checkItems_eq_clean.1 h.eq
    exact ⟨hdistinct, isClean_iff.2 ⟨_, addItems_eq_clean.2 ⟨es, hes, rfl⟩⟩⟩
  · rintro ⟨hdistinct, h⟩
    obtain ⟨es, hes, -⟩ := addItems_eq_clean.1 h.eq
    exact isClean_iff.2 ⟨_, checkItems_eq_clean.2 ⟨hdistinct, es, hes, rfl⟩⟩

/-- Types are written in definitions too, so what a type leads to is covered by the types that
are written. -/
theorem isClean_types {names : ModuleNames} (h : Covers names items) :
    (∀ i ∈ items, ∀ t ∈ i.types, (expandType names.types t).IsClean) ↔
      ∀ i ∈ items, ∀ t ∈ i.types, ∀ n, Mentions t n → Grounded (Defines items) n.name := by
  simp only [isClean_expandType h.types]
  refine ⟨fun hall i hi t ht n hn => hall i hi t ht n hn _ .refl, fun hall i hi t ht n hn y hy => ?_⟩
  obtain rfl | ⟨x, -, fields, ⟨d, hd, -, rfl⟩, t', ht', n', hn', rfl⟩ := ReflTransGen.cases_tail hy
  · exact hall i hi t ht n hn
  · obtain ⟨j, hj, hjd⟩ := List.mem_filterMap.1 hd
    cases j <;> cases hjd
    exact hall _ hj t' ht' n' hn'

/-- **Acceptance.** A source is resolved exactly if it is well-scoped. -/
theorem resolve_isOk_iff_wellScoped : (∃ m, resolve items = .ok m) ↔ WellScoped items := by
  simp only [resolve_eq_ok, ← isClean_iff, isClean_checkItems]
  constructor
  · rintro ⟨hdistinct, hclean⟩
    have hcovers := covers_ofItems hdistinct
    have hitems := (isClean_addItems hcovers).1 hclean
    obtain ⟨htypes, hglobals, hcallees⟩ := distinct_ofItems.1 hdistinct
    exact ⟨htypes, hglobals, hcallees, (isClean_types hcovers).1 fun i hi => (hitems i hi).1,
      fun g hg => (hitems _ hg).2.1 g rfl, fun d hd => (hitems _ hd).2.2 d rfl⟩
  · rintro ⟨htypeNames, hglobals, hcallees, htypes, hinits, hfunctions⟩
    have hdistinct := distinct_ofItems.2 ⟨htypeNames, hglobals, hcallees⟩
    have hcovers := covers_ofItems hdistinct
    refine ⟨hdistinct, (isClean_addItems hcovers).2 fun i hi => ⟨(isClean_types hcovers).2 htypes i hi, ?_, ?_⟩⟩
    · rintro g rfl
      exact hinits g hi
    · rintro d rfl
      exact hfunctions d hi

end

end RangedIR.Scope
