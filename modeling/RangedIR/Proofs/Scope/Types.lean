/-
RangedIR.Proofs.Scope.Types — types expanded again from their text.

A type is written by the names of its aggregates, so the expression that writes it is
not the one it came from: everything outside a name has been expanded. Where the
definitions are those of the fields as they were expanded, the expression expands to
the type again.
-/
import RangedIR.Proofs.Scope.Clean
import RangedIR.Proofs.Source.Printing

namespace RangedIR.Scope

open Source Checked

/-! ## 1. Expansion of names -/

section

variable {named named' : Ident → Checked (Option Ty)} {defs : TypeDefs} {fuel : Nat} {expanding : List String}
  {n : Ident} {t : TypeExpr} {ty : Ty}

theorem expandWith_ptr :
    expandWith named (.ptr t) = clean (some ty) ↔ ∃ u, expandWith named t = clean (some u) ∧ .ptr u = ty := by
  rw [expandWith, map_eq_clean]

theorem expandWith_array {length : Nat} :
    expandWith named (.array length t) = clean (some ty) ↔
      ∃ u, expandWith named t = clean (some u) ∧ .array length u = ty := by
  rw [expandWith, map_eq_clean]

theorem expandWith_struct {fields : List TypeExpr} :
    expandWith named (.struct fields) = clean (some ty) ↔
      ∃ tys, List.Forall₂ (fun t ty => expandWith named t = clean (some ty)) fields tys ∧ .struct none tys = ty := by
  simp only [expandWith, map_eq_clean, expandAllWith_eq_clean]

/-- A name stands for the aggregate of its fields, and is not met while it is expanded. -/
theorem expandName_eq_clean :
    expandName defs (fuel + 1) expanding n = clean (some ty) ↔
      ∃ fields tys, defs.find? n.name = some fields ∧ n.name ∉ expanding ∧
        List.Forall₂ (fun t ty => expandWith (expandName defs fuel (n.name :: expanding)) t = clean (some ty))
          fields tys ∧ ty = .struct (some n.name) tys := by
  rw [expandName]
  cases defs.find? n.name with
  | none => simp
  | some fields =>
    by_cases hexpanding : n.name ∈ expanding
    · simp [hexpanding]
    · simp only [List.contains_iff_mem, hexpanding, if_false, bind_eq_clean, pure_eq_clean, Option.map_eq_some_iff,
        Option.some.injEq, not_false_eq_true, true_and]
      constructor
      · rintro ⟨_, hfields, tys, rfl, rfl⟩
        exact ⟨fields, tys, rfl, expandAllWith_eq_clean.1 hfields, rfl⟩
      · rintro ⟨_, tys, rfl, hfields, rfl⟩
        exact ⟨some tys, expandAllWith_eq_clean.2 hfields, tys, rfl, rfl⟩

theorem struct_of_expandName (h : expandName defs fuel expanding n = clean (some ty)) :
    ∃ tys, ty = .struct (some n.name) tys := by
  cases fuel with
  | zero => simp [expandName] at h
  | succ fuel =>
    obtain ⟨-, tys, -, -, -, rfl⟩ := expandName_eq_clean.1 h
    exact ⟨tys, rfl⟩

theorem forall₂_unique {α β : Type} {R S : α → β → Prop} {l : List α}
    (h : ∀ a ∈ l, ∀ b c, R a b → S a c → b = c) {bs cs : List β} (hbs : List.Forall₂ R l bs)
    (hcs : List.Forall₂ S l cs) : bs = cs := by
  induction hbs generalizing cs with
  | nil => exact (List.forall₂_nil_left_iff.1 hcs).symm
  | cons hb _ ih =>
    obtain ⟨c, cs, hc, hrest, rfl⟩ := List.forall₂_cons_left_iff.1 hcs
    obtain ⟨hhead, htail⟩ := List.forall_mem_cons.1 h
    rw [hhead _ _ hb hc, ih htail hrest]

/-- What an expression expands to depends on its names alone. -/
theorem expandWith_unique (h : ∀ n a b, named n = clean (some a) → named' n = clean (some b) → a = b)
    {ty' : Ty} (hty : expandWith named t = clean (some ty)) (hty' : expandWith named' t = clean (some ty')) :
    ty = ty' := by
  induction t using TypeExpr.structural generalizing ty ty' with
  | void | int | float | double => simp_all [expandWith]
  | named n => exact h n _ _ hty hty'
  | ptr t ih =>
    obtain ⟨u, hu, rfl⟩ := expandWith_ptr.1 hty
    obtain ⟨u', hu', rfl⟩ := expandWith_ptr.1 hty'
    rw [ih hu hu']
  | array length t ih =>
    obtain ⟨u, hu, rfl⟩ := expandWith_array.1 hty
    obtain ⟨u', hu', rfl⟩ := expandWith_array.1 hty'
    rw [ih hu hu']
  | struct fields ih =>
    obtain ⟨tys, htys, rfl⟩ := expandWith_struct.1 hty
    obtain ⟨tys', htys', rfl⟩ := expandWith_struct.1 hty'
    rw [forall₂_unique (fun t ht _ _ => ih t ht) htys htys']

/-- A name expands to the same type in every context in which it expands. -/
theorem expandName_unique {fuel' : Nat} {expanding' : List String} {ty' : Ty}
    (hty : expandName defs fuel expanding n = clean (some ty))
    (hty' : expandName defs fuel' expanding' n = clean (some ty')) : ty = ty' := by
  induction fuel generalizing n expanding fuel' expanding' ty ty' with
  | zero => simp [expandName] at hty
  | succ fuel ih =>
    cases fuel' with
    | zero => simp [expandName] at hty'
    | succ fuel' =>
      obtain ⟨fields, tys, hfind, -, htys, rfl⟩ := expandName_eq_clean.1 hty
      obtain ⟨fields', tys', hfind', -, htys', rfl⟩ := expandName_eq_clean.1 hty'
      obtain rfl := Option.some.inj (hfind.symm.trans hfind')
      rw [forall₂_unique (fun t _ _ _ => expandWith_unique fun _ _ _ => ih) htys htys']

end

/-! ## 2. The expressions of expanded types -/

section

variable {named named' : Ident → Checked (Option Ty)} {t : TypeExpr} {ty : Ty}

/-- The expression of an expanded type is valid, and starts like the one it came from. -/
theorem valid_expr (hnamed : ∀ n ty, named n = clean (some ty) → ∃ tys, ty = .struct (some n.name) tys)
    (ht : t.Valid) (hty : expandWith named t = clean (some ty)) :
    ty.expr.Valid ∧ ty.expr.startsVoid = t.startsVoid := by
  induction ht generalizing ty with
  | void | float | double =>
    obtain rfl : _ = ty := by simpa [expandWith] using hty
    exact ⟨by constructor, rfl⟩
  | int hbits =>
    obtain rfl : _ = ty := by simpa [expandWith] using hty
    exact ⟨.int hbits, rfl⟩
  | named hname =>
    obtain ⟨tys, rfl⟩ := hnamed _ _ hty
    exact ⟨.named hname, rfl⟩
  | ptr _ ih =>
    obtain ⟨u, hu, rfl⟩ := expandWith_ptr.1 hty
    exact ⟨.ptr (ih hu).1, (ih hu).2⟩
  | array hlength _ ih =>
    obtain ⟨u, hu, rfl⟩ := expandWith_array.1 hty
    exact ⟨.array hlength (ih hu).1, rfl⟩
  | struct _ ih =>
    obtain ⟨tys, htys, rfl⟩ := expandWith_struct.1 hty
    refine ⟨?_, rfl⟩
    rw [Ty.expr, Ty.exprs_eq]
    exact .struct (List.forall_mem_map.2 (forall_of_forall₂ htys fun t ht u _ hu => (ih t ht hu).1))

/-- If names expand again, so do the expressions made of them. -/
theorem expandWith_expr (h : ∀ n ty, named n = clean (some ty) → expandWith named' ty.expr = clean (some ty))
    (hty : expandWith named t = clean (some ty)) : expandWith named' ty.expr = clean (some ty) := by
  induction t using TypeExpr.structural generalizing ty with
  | void | int | float | double =>
    obtain rfl : _ = ty := by simpa [expandWith] using hty
    rfl
  | named n => exact h n ty hty
  | ptr t ih =>
    obtain ⟨u, hu, rfl⟩ := expandWith_ptr.1 hty
    exact expandWith_ptr.2 ⟨u, ih hu, rfl⟩
  | array length t ih =>
    obtain ⟨u, hu, rfl⟩ := expandWith_array.1 hty
    exact expandWith_array.2 ⟨u, ih hu, rfl⟩
  | struct fields ih =>
    obtain ⟨tys, htys, rfl⟩ := expandWith_struct.1 hty
    rw [Ty.expr, Ty.exprs_eq]
    refine expandWith_struct.2 ⟨tys, List.forall₂_map_left_iff.2 (List.forall₂_same.2 ?_), rfl⟩
    exact forall_of_forall₂ htys fun t ht u _ hu => ih t ht hu

end

/-! ## 3. Expanding again -/

/-- The second definitions write the fields of the first as they are expanded. -/
structure Rewrites (defs defs' : TypeDefs) : Prop where
  size : defs'.size = defs.size
  fields : ∀ name fields, defs.find? name = some fields → ∃ tys,
    List.Forall₂ (fun t ty => expandType defs t = clean (some ty)) fields tys ∧
      defs'.find? name = some (tys.map Ty.expr)

namespace Rewrites

variable {defs defs' : TypeDefs} (h : Rewrites defs defs') {t : TypeExpr} {ty : Ty}

include h

theorem expandName {fuel : Nat} {expanding : List String} {n : Ident}
    (hty : Scope.expandName defs fuel expanding n = clean (some ty)) :
    expandWith (Scope.expandName defs' fuel expanding) ty.expr = clean (some ty) := by
  induction fuel generalizing n expanding ty with
  | zero => simp [Scope.expandName] at hty
  | succ fuel ih =>
    obtain ⟨fields, tys, hfind, hexpanding, htys, rfl⟩ := expandName_eq_clean.1 hty
    obtain ⟨tys', htys', hfind'⟩ := h.fields _ _ hfind
    -- at the top and here, the fields expand alike
    obtain rfl : tys = tys' :=
      forall₂_unique (fun t _ _ _ => expandWith_unique fun _ _ _ => expandName_unique) htys htys'
    refine expandName_eq_clean.2 ⟨_, tys, hfind', hexpanding, ?_, rfl⟩
    refine List.forall₂_map_left_iff.2 (List.forall₂_same.2 ?_)
    exact forall_of_forall₂ htys fun t _ u _ hu => expandWith_expr (fun _ _ => ih) hu

/-- The expression that writes a type expands to it again. -/
theorem expandType (hty : Scope.expandType defs t = clean (some ty)) :
    Scope.expandType defs' ty.expr = clean (some ty) := by
  rw [Scope.expandType, h.size]
  exact expandWith_expr (fun _ _ => h.expandName) hty

theorem typeOrVoid (hty : Scope.typeOrVoid defs t = clean ty) : Scope.typeOrVoid defs' ty.expr = clean ty :=
  typeOrVoid_eq_clean.2 (h.expandType (typeOrVoid_eq_clean.1 hty))

theorem presentTypes {ts : List TypeExpr} {tys : List Ty} (htys : Scope.presentTypes defs ts = clean tys) :
    Scope.presentTypes defs' (tys.map Ty.expr) = clean tys := by
  refine presentTypes_eq_clean.2 (List.forall₂_map_left_iff.2 (List.forall₂_same.2 ?_))
  exact forall_of_forall₂ (presentTypes_eq_clean.1 htys) fun t _ u _ => h.expandType

end Rewrites

theorem valid_expr_of_expandType {defs : TypeDefs} {t : TypeExpr} {ty : Ty} (ht : t.Valid)
    (hty : expandType defs t = clean (some ty)) : ty.expr.Valid ∧ ty.expr.startsVoid = t.startsVoid :=
  valid_expr (fun _ _ => struct_of_expandName) ht hty

end RangedIR.Scope
