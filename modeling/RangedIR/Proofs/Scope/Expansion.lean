/-
RangedIR.Proofs.Scope.Expansion — the expansion of types ends and is faithful.

Every name that is entered is defined and is not entered again inside its own expansion, so no
more names are entered inside each other than there are definitions. The names that are being
expanded may as well be kept on one stack, which is put back after each name.
-/
import RangedIR.Proofs.Scope.Acceptance

namespace RangedIR.Scope

open Source Checked Relation

/-! ## 1. One stack -/

local instance : LawfulMonad Checked := .mk' _ (fun _ => congrArg (mk _) (List.append_nil _)) (fun _ _ => rfl)
  fun _ _ _ => congrArg (mk _) (List.append_assoc ..)

/-- Expand a name with a stack of the names that are being expanded. Names that are `bound` deep
inside others are answered by `stuck`. -/
def expandOn (defs : TypeDefs) (stuck : Checked (Option Ty)) :
    Nat → Ident → StateT (List String) Checked (Option Ty)
  | 0, _ => StateT.lift stuck
  | bound + 1, n => do
    match defs.find? n.name with
    | none => StateT.lift (missing none (.undefinedType n.name))
    | some fields =>
      if (← get).contains n.name then StateT.lift (missing none (.recursiveType n.name))
      else
        modify (n.name :: ·)
        let tys ← expandAllWith (expandOn defs stuck bound) fields
        modify List.tail
        pure (tys.map (.struct (some n.name)))

/-- The program answers what is given and leaves the stack as it found it. -/
def Restores {α : Type} (stack : List String) (p : StateT (List String) Checked α) (c : Checked α) : Prop :=
  p stack = (c >>= fun a => pure (a, stack))

section

variable {α β : Type} {stack : List String} {named : Ident → StateT (List String) Checked (Option Ty)}
  {named' : Ident → Checked (Option Ty)}

theorem restores_pure (a : α) : Restores stack (pure a) (pure a) := rfl

theorem Restores.bind {p : StateT (List String) Checked α} {c : Checked α} {f : α → StateT (List String) Checked β}
    {g : α → Checked β} (hp : Restores stack p c) (hf : ∀ a, Restores stack (f a) (g a)) :
    Restores stack (p >>= f) (c >>= g) := by
  simp only [Restores] at hp hf ⊢
  show (p stack >>= fun r => f r.1 r.2) = _
  simp [hp, hf]

theorem restores_expandAllWith {ts : List TypeExpr}
    (h : ∀ t ∈ ts, Restores stack (expandWith named t) (expandWith named' t)) :
    Restores stack (expandAllWith named ts) (expandAllWith named' ts) := by
  induction ts with
  | nil => exact restores_pure _
  | cons t ts ih =>
    obtain ⟨ht, hts⟩ := List.forall_mem_cons.1 h
    refine ht.bind fun o => ?_
    cases o with
    | none => exact restores_pure _
    | some ty => exact (ih hts).bind fun _ => restores_pure _

theorem restores_expandWith (h : ∀ n, Restores stack (named n) (named' n)) (t : TypeExpr) :
    Restores stack (expandWith named t) (expandWith named' t) := by
  induction t using TypeExpr.structural with
  | void | int | float | double => exact restores_pure _
  | named n => exact h n
  | ptr t ih | array length t ih => exact ih.bind fun _ => restores_pure _
  | struct fields ih => exact (restores_expandAllWith ih).bind fun _ => restores_pure _

end

/-! ## 2. Depth -/

section

variable {defs : TypeDefs} {expanding : List String} {x : String}

/-- The defined names that are not being expanded. -/
def unexpanded (defs : TypeDefs) (expanding : List String) : List String := defs.keys.filter (· ∉ expanding)

theorem length_unexpanded_cons {fields : List TypeExpr} (hfind : defs.find? x = some fields) (hx : x ∉ expanding) :
    (unexpanded defs (x :: expanding)).length < (unexpanded defs expanding).length := by
  have hfilter : unexpanded defs (x :: expanding) = (unexpanded defs expanding).filter (· ≠ x) := by
    simp [unexpanded, List.filter_filter]
  have hmem : x ∈ unexpanded defs expanding := by
    simp [unexpanded, hx, Table.mem_keys, Table.contains_eq, hfind]
  rw [hfilter, List.length_filter_lt_length_iff_exists]
  exact ⟨x, hmem, by simp⟩

/-- Neither bound is met if there are fewer names left to be entered. -/
theorem restores_expandOn {stuck : Checked (Option Ty)} {bound bound' : Nat}
    (h : (unexpanded defs expanding).length < bound) (h' : (unexpanded defs expanding).length < bound') (n : Ident) :
    Restores expanding (expandOn defs stuck bound n) (expandName defs bound' expanding n) := by
  induction bound generalizing bound' expanding n with
  | zero => omega
  | succ bound ih =>
    obtain _ | bound' := bound'
    · omega
    simp only [Restores, expandOn, expandName]
    cases hfind : defs.find? n.name with
    | none => rfl
    | some fields =>
      show (ite (expanding.contains n.name = true) _ _ : StateT (List String) Checked (Option Ty)) expanding =
        (ite (expanding.contains n.name = true) _ _ >>= _)
      split_ifs with hmem
      · rfl
      · have hless := length_unexpanded_cons hfind (mt List.contains_iff_mem.2 hmem)
        have hfields : Restores (n.name :: expanding) (expandAllWith (expandOn defs stuck bound) fields) _ :=
          restores_expandAllWith fun t _ =>
            restores_expandWith (@ih (n.name :: expanding) bound' (by omega) (by omega)) t
        show (expandAllWith (expandOn defs stuck bound) fields (n.name :: expanding) >>= fun r =>
          pure (r.1.map (Ty.struct (some n.name)), r.2.tail)) = _
        rw [Restores] at hfields
        simp [hfields]

end

/-! ## 3. The expansion of a type -/

/-- **Expansion of types.** From any stack, names nest at most as deep as there are definitions, and
the stack is left as it was found. There is a type exactly if no issue is told, and exactly if
every name that is reached is defined and does not reach itself. The type is the expression with
an aggregate in the place of each name. -/
theorem expandType_ends_faithful (defs : TypeDefs) (t : TypeExpr) :
    (∀ stuck bound stack, defs.size < bound → (expandWith (expandOn defs stuck bound) t).run stack =
      (expandWith (expandName defs (defs.size + 1) stack) t >>= fun ty => pure (ty, stack))) ∧
    ((expandType defs t).value = none ↔ (expandType defs t).issues ≠ []) ∧
    ((expandType defs t).value.isSome = true ↔ ∀ n, Mentions t n → ∀ y,
      ReflTransGen (Expands fun x fields => defs.find? x = some fields) n.name y →
        Grounded (fun x fields => defs.find? x = some fields) y) ∧
    ∀ ty, (expandType defs t).value = some ty → Stands defs t ty := by
  have hsettled : (expandType defs t).issues = [] ↔ (expandType defs t).value.isSome = true := settled_expandType
  refine ⟨fun stuck bound stack hbound => ?_, ?_, hsettled.symm.trans (isClean_expandType fun _ _ => Iff.rfl), ?_⟩
  · have hleft : (unexpanded defs stack).length ≤ defs.size :=
      (List.length_filter_le _ _).trans (List.length_map _).le
    exact restores_expandWith (restores_expandOn (by omega) (by omega)) t
  · rw [ne_eq, hsettled, Option.not_isSome_iff_eq_none]
  · intro ty hty
    exact stands_of_expandType (congrArg₂ mk hty (hsettled.2 (by rw [hty]; rfl)))

end RangedIR.Scope
