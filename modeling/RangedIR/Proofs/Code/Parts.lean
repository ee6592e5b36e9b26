/-
RangedIR.Proofs.Code.Parts — where the parts of a type lie.

A structure has its fields and an array its elements, one behind the other, and these have
parts of their own. Two parts of a type do not overlap, unless one of them lies in the other.
Machine words say where the parts of a type lie if its size is one.
-/
import Mathlib.Algebra.Group.Nat.Defs
import RangedIR.Analysis.Address

namespace RangedIR

/-- A type that has parts. -/
def Ty.isAggregate : Ty → Bool
  | array _ _ | struct _ _ => true
  | _ => false

namespace DataLayout

variable {l : DataLayout}

/-! ## 1. Fields and elements -/

theorem le_roundUp (n unit : Nat) : n ≤ roundUp id n unit := by
  unfold roundUp id
  split
  · exact Nat.le_refl n
  · have hpos : 0 < unit := by omega
    have hrest := Nat.mod_lt (n + unit - 1) hpos
    have hwhole := Nat.div_add_mod' (n + unit - 1) unit
    omega

/-- Where a field ends that starts at an offset or behind it. -/
def fieldEnd (l : DataLayout) (offset : Nat) (t : Ty) : Nat := l.fieldStart id offset t + l.exactSize t

theorem le_fieldEnd (offset : Nat) (t : Ty) : offset ≤ l.fieldEnd offset t :=
  Nat.le_trans (le_roundUp _ _) (Nat.le_add_right _ _)

theorem fieldsEnd_cons (offset : Nat) (t : Ty) (rest : List Ty) :
    l.fieldsEnd id offset (t :: rest) = l.fieldsEnd id (l.fieldEnd offset t) rest := by
  rw [fieldsEnd]
  rfl

theorem le_fieldsEnd (fields : List Ty) : ∀ offset, offset ≤ l.fieldsEnd id offset fields := by
  induction fields with
  | nil => exact fun offset => Nat.le_of_eq (by rw [fieldsEnd])
  | cons t rest ih =>
    intro offset
    rw [fieldsEnd_cons]
    exact Nat.le_trans (le_fieldEnd offset t) (ih _)

theorem le_fieldOffset {o : Nat} (fields : List Ty) : ∀ {offset i : Nat}, l.fieldOffset id offset fields i = some o →
    offset ≤ o := by
  induction fields with
  | nil =>
    intro offset i h
    rw [fieldOffset] at h
    cases h
  | cons t rest ih =>
    intro offset i h
    cases i with
    | zero =>
      cases h
      exact le_roundUp _ _
    | succ i => exact Nat.le_trans (le_fieldEnd offset t) (ih h)

theorem fieldOffset_fits {o : Nat} {t : Ty} (fields : List Ty) : ∀ {offset i : Nat},
    l.fieldOffset id offset fields i = some o → fields[i]? = some t → o + l.exactSize t ≤ l.fieldsEnd id offset fields := by
  induction fields with
  | nil => exact fun _ ht => by cases ht
  | cons t' rest ih =>
    intro offset i h ht
    rw [fieldsEnd_cons]
    cases i with
    | zero =>
      cases h
      cases ht
      exact le_fieldsEnd rest _
    | succ i => exact ih h ht

theorem fieldOffset_ordered {o o' : Nat} {t : Ty} (fields : List Ty) : ∀ {offset i j : Nat}, i < j →
    l.fieldOffset id offset fields i = some o → fields[i]? = some t → l.fieldOffset id offset fields j = some o' →
    o + l.exactSize t ≤ o' := by
  induction fields with
  | nil => exact fun _ _ ht => by cases ht
  | cons t' rest ih =>
    intro offset i j hij h ht h'
    cases j with
    | zero => omega
    | succ j =>
      cases i with
      | zero =>
        cases h
        cases ht
        exact le_fieldOffset rest h'
      | succ i => exact ih (Nat.lt_of_succ_lt_succ hij) h ht h'

/-- A type has a part of another type at an offset, under an index. -/
structure HasPart (l : DataLayout) (t : Ty) (i o : Nat) (part : Ty) : Prop where
  offset : l.offsetWith id t i = some o
  type : t.indexInto (some (i : Int)) = some part

namespace HasPart

variable {t part part' : Ty} {i j o o' : Nat}

theorem isAggregate (h : l.HasPart t i o part) : t.isAggregate = true := by
  cases t with
  | array n e => rfl
  | struct name fields => rfl
  | _ => cases h.type

theorem unique (h : l.HasPart t i o part) (h' : l.HasPart t i o' part') : o = o' ∧ part = part' :=
  ⟨Option.some.inj (h.offset.symm.trans h'.offset), Option.some.inj (h.type.symm.trans h'.type)⟩

theorem of_array {n : Nat} {e : Ty} (h : l.HasPart (.array n e) i o part) :
    part = e ∧ i < n ∧ o = i * l.exactSize e := by
  obtain ⟨hoffset, htype⟩ := h
  cases htype
  simp only [offsetWith, id_eq, Option.ite_none_right_eq_some, Option.some.injEq] at hoffset
  exact ⟨rfl, hoffset.1, hoffset.2.symm⟩

/-- A part ends where the type ends, or before. -/
theorem fits (h : l.HasPart t i o part) : o + l.exactSize part ≤ l.exactSize t := by
  cases t with
  | array n e =>
    obtain ⟨rfl, hi, rfl⟩ := h.of_array
    rw [← Nat.succ_mul]
    exact Nat.mul_le_mul_right _ hi
  | struct name fields =>
    exact Nat.le_trans (fieldOffset_fits fields h.offset h.type) (le_roundUp _ _)
  | _ => cases h.type

/-- A part ends before parts of greater index start. -/
theorem ordered (hij : i < j) (h : l.HasPart t i o part) (h' : l.HasPart t j o' part') :
    o + l.exactSize part ≤ o' := by
  cases t with
  | array n e =>
    obtain ⟨rfl, -, rfl⟩ := h.of_array
    obtain ⟨-, -, rfl⟩ := h'.of_array
    rw [← Nat.succ_mul]
    exact Nat.mul_le_mul_right _ hij
  | struct name fields => exact fieldOffset_ordered fields hij h.offset h.type h'.offset
  | _ => cases h.type

end HasPart

/-! ## 2. Parts of parts -/

/-- A type has another type at an offset: itself, or in one of its parts. -/
inductive Holds (l : DataLayout) : Ty → Nat → Ty → Prop
  | whole (t : Ty) : Holds l t 0 t
  | inside {t part x : Ty} {i o o' : Nat} : l.HasPart t i o part → Holds l part o' x → Holds l t (o + o') x

namespace Holds

variable {t x y : Ty} {o o' : Nat}

theorem trans (h : l.Holds t o x) (h' : l.Holds x o' y) : l.Holds t (o + o') y := by
  induction h with
  | whole => rwa [Nat.zero_add]
  | inside hpart _ ih =>
    rw [Nat.add_assoc]
    exact .inside hpart (ih h')

theorem fits (h : l.Holds t o x) : o + l.exactSize x ≤ l.exactSize t := by
  induction h with
  | whole => exact Nat.le_of_eq (Nat.zero_add _)
  | inside hpart _ ih =>
    have hfits := hpart.fits
    omega

/-- A type without parts has only itself. -/
theorem eq_zero_of_scalar (h : l.Holds t o x) (ht : t.isAggregate = false) : o = 0 := by
  cases h with
  | whole => rfl
  | inside hpart _ => exact absurd (hpart.isAggregate.symm.trans ht) Bool.noConfusion

/-! ## 3. Parts that overlap -/

/-- A type that starts inside of another one, both at places of one type, starts where the
other one starts or lies in it. -/
theorem of_overlap (h : l.Holds t o x) : ∀ {o' : Nat}, l.Holds t o' y → o ≤ o' → o' < o + l.exactSize x →
    o' = o ∨ l.Holds x (o' - o) y := by
  induction h with
  | whole t =>
    intro o' h' _ _
    exact Or.inr h'
  | @inside t part x i a b hpart hx ih =>
    intro o' h' hle hlt
    cases h' with
    | whole => exact Or.inl (by omega)
    | @inside _ part' _ j a' b' hpart' hy =>
      have hx := hx.fits
      have hy' := hy.fits
      rcases Nat.lt_trichotomy i j with hij | rfl | hij
      · -- the second part starts behind the first one
        have hordered := hpart.ordered hij hpart'
        omega
      · obtain ⟨rfl, rfl⟩ := hpart.unique hpart'
        rcases ih hy (by omega) (by omega) with heq | hinside
        · exact Or.inl (by omega)
        · refine Or.inr ?_
          rwa [Nat.add_sub_add_left]
      · -- the second part ends where the first one starts, or before
        have hordered := hpart'.ordered hij hpart
        exact Or.inl (by omega)

end Holds

/-! ## 4. Machine words -/

theorem roundUp_of_lt {n unit : Nat} (h : roundUp id n unit < 2 ^ 64) : roundUp (wrap 64) n unit = roundUp id n unit := by
  unfold roundUp at h ⊢
  split at h
  · simp only [*, if_true]
  · simp only [*, if_false]
    exact wrap_of_lt h

theorem fieldEnd_of_lt {offset : Nat} {t : Ty} (h : l.fieldEnd offset t < 2 ^ 64)
    (ht : l.sizeInBits t = l.exactSize t) :
    wrap 64 (l.fieldStart (wrap 64) offset t + l.sizeWith (wrap 64) t) = l.fieldEnd offset t := by
  have hstart : l.fieldStart (wrap 64) offset t = l.fieldStart id offset t :=
    roundUp_of_lt (Nat.lt_of_le_of_lt (Nat.le_add_right _ _) h)
  rw [hstart, show l.sizeWith (wrap 64) t = l.exactSize t from ht]
  exact wrap_of_lt h

mutual

/-- A size that is a machine word is computed exactly. -/
theorem sizeInBits_of_lt : ∀ {t : Ty}, l.exactSize t < 2 ^ 64 → l.sizeInBits t = l.exactSize t
  | .void, _ | .float, _ | .double, _ | .ptr _, _ => by
    simp only [sizeInBits, exactSize, sizeWith]
  | .int _, h => by
    simp only [sizeInBits, exactSize, sizeWith] at h ⊢
    exact roundUp_of_lt h
  | .array n e, h => by
    simp only [sizeInBits, exactSize, sizeWith, id_eq] at h ⊢
    rcases Nat.eq_zero_or_pos n with rfl | hn
    · rw [Nat.zero_mul, Nat.zero_mul]
      exact wrap_of_lt (by decide)
    · have he := sizeInBits_of_lt (t := e) (Nat.lt_of_le_of_lt (Nat.le_mul_of_pos_left _ hn) h)
      rw [show l.sizeWith (wrap 64) e = l.sizeWith id e from he]
      exact wrap_of_lt h
  | .struct _ fields, h => by
    simp only [sizeInBits, exactSize, sizeWith] at h ⊢
    rw [fieldsEnd_of_lt fields (Nat.lt_of_le_of_lt (le_roundUp _ _) h)]
    exact roundUp_of_lt h

theorem fieldsEnd_of_lt : ∀ (fields : List Ty) {offset : Nat}, l.fieldsEnd id offset fields < 2 ^ 64 →
    l.fieldsEnd (wrap 64) offset fields = l.fieldsEnd id offset fields
  | [], _, _ => by simp only [fieldsEnd]
  | t :: rest, offset, h => by
    rw [fieldsEnd_cons] at h
    have hend := Nat.lt_of_le_of_lt (le_fieldsEnd rest _) h
    have ht := sizeInBits_of_lt (t := t) (Nat.lt_of_le_of_lt (Nat.le_add_left _ _) hend)
    rw [fieldsEnd_cons, fieldsEnd, fieldEnd_of_lt hend ht]
    exact fieldsEnd_of_lt rest h

end

theorem fieldOffset_of_lt (fields : List Ty) : ∀ {offset i : Nat}, l.fieldsEnd id offset fields < 2 ^ 64 →
    l.fieldOffset (wrap 64) offset fields i = l.fieldOffset id offset fields i := by
  induction fields with
  | nil => exact fun _ => by simp only [fieldOffset]
  | cons t rest ih =>
    intro offset i h
    rw [fieldsEnd_cons] at h
    have hend := Nat.lt_of_le_of_lt (le_fieldsEnd rest _) h
    cases i with
    | zero => exact congrArg some (roundUp_of_lt (Nat.lt_of_le_of_lt (Nat.le_add_right _ _) hend))
    | succ i =>
      have ht := sizeInBits_of_lt (t := t) (Nat.lt_of_le_of_lt (Nat.le_add_left _ _) hend)
      rw [fieldOffset, fieldEnd_of_lt hend ht]
      exact ih h

/-- In a type whose size is a machine word, parts are found where they are. -/
theorem offsetInBits_of_lt {t : Ty} (h : l.exactSize t < 2 ^ 64) (i : Nat) : l.offsetInBits t i = l.offsetWith id t i := by
  cases t with
  | array n e =>
    simp only [exactSize, sizeWith, id_eq] at h
    simp only [offsetInBits, offsetWith, id_eq]
    split
    · have hi : i < n := ‹_›
      have he := sizeInBits_of_lt (t := e) (Nat.lt_of_le_of_lt (Nat.le_mul_of_pos_left _ (Nat.zero_lt_of_lt hi)) h)
      rw [show l.sizeWith (wrap 64) e = l.sizeWith id e from he,
        wrap_of_lt (Nat.lt_of_le_of_lt (Nat.mul_le_mul_right _ (Nat.le_of_lt hi)) h)]
    · rfl
  | struct name fields =>
    simp only [exactSize, sizeWith] at h
    exact fieldOffset_of_lt fields (Nat.lt_of_le_of_lt (le_roundUp _ _) h)
  | _ => rfl

/-! ## 5. Index paths -/

section Paths

variable {o bits : Nat} {path : List (Ty × Operand)} {t source : Ty} {indices : List (Ty × Operand)}

/-- The first index of a path leads to a part, and the others into it. -/
theorem pathOffset_cons {ty : Ty} {op : Operand} {rest : List (Ty × Operand)} (ht : l.exactSize t < 2 ^ 64)
    (h : l.pathOffset t ((ty, op) :: rest) = some o) : ∃ (i a b : Nat) (part : Ty),
      op = .const (.int i) ∧ l.HasPart t i a part ∧ l.pathOffset part rest = some b ∧ o = wrap 64 (a + b) := by
  rw [pathOffset] at h
  cases op with
  | const c =>
    cases c with
    | int n =>
      cases n with
      | ofNat i =>
        simp only [Scope.literalIndex?, Option.bind_eq_bind, Option.bind_some, Option.bind_eq_some_iff] at h
        obtain ⟨a, ha, part, hpart, b, hb, ho⟩ := h
        rw [offsetInBits_of_lt ht] at ha
        exact ⟨i, a, b, part, rfl, ⟨ha, hpart⟩, hb, (Option.some.inj ho).symm⟩
      | negSucc => simp [Scope.literalIndex?] at h
    | _ => simp [Scope.literalIndex?] at h
  | _ => simp [Scope.literalIndex?] at h

/-- The type that a path leads to from a type on. -/
def typeAlong (t : Ty) (path : List (Ty × Operand)) : Option Ty :=
  path.foldlM (fun t (_, op) => t.indexInto (Scope.literalIndex? op)) t

theorem HasPart.typeAlong_cons {t part ty : Ty} {i a : Nat} (h : l.HasPart t i a part) (rest : List (Ty × Operand)) :
    typeAlong t ((ty, .const (.int i)) :: rest) = typeAlong part rest := by
  simp [typeAlong, Scope.literalIndex?, h.type]

/-- A path of literal indices leads to a part. -/
theorem holds_of_pathOffset (ht : l.exactSize t < 2 ^ 64) (h : l.pathOffset t path = some o) :
    ∃ x, typeAlong t path = some x ∧ l.Holds t o x := by
  induction path generalizing t o with
  | nil =>
    cases h
    exact ⟨t, rfl, .whole t⟩
  | cons step rest ih =>
    obtain ⟨ty, op⟩ := step
    obtain ⟨i, a, b, part, rfl, hpart, hrest, rfl⟩ := pathOffset_cons ht h
    have hfits := hpart.fits
    obtain ⟨x, hx, hholds⟩ := ih (by omega) hrest
    have hfits' := hholds.fits
    rw [wrap_of_lt (by omega)]
    exact ⟨x, (hpart.typeAlong_cons rest).trans hx, .inside hpart hholds⟩

theorem fits_of_pathOffset {x : Ty} (ht : l.exactSize t < 2 ^ 64) (h : l.pathOffset t path = some o)
    (hx : typeAlong t path = some x) : o + l.exactSize x ≤ l.exactSize t := by
  obtain ⟨x', hx', hholds⟩ := holds_of_pathOffset ht h
  rw [Option.some.inj (hx.symm.trans hx')]
  exact hholds.fits

theorem elementOffset_eq_some (h : l.elementOffset source indices = some bits) :
    ∃ ty rest, indices = (ty, .const (.int 0)) :: rest ∧ l.pathOffset source rest = some bits := by
  unfold elementOffset leadingZero at h
  split at h
  · exact ⟨_, _, rfl, h⟩
  · cases h

/-- The offset of an index path is that of the part it leads to. -/
theorem holds_of_elementOffset (hsource : l.exactSize source < 2 ^ 64) (h : l.elementOffset source indices = some bits) :
    ∃ x, Scope.elementType? source indices = some x ∧ l.Holds source bits x := by
  obtain ⟨ty, rest, rfl, hrest⟩ := elementOffset_eq_some h
  exact holds_of_pathOffset hsource hrest

end Paths

/-! ## 6. Paths that part -/

/-- Paths of which neither continues the other differ in an index. The parts under the two
indices lie one behind the other, and the paths lead into them. -/
theorem pathOffset_apart {p q : List (Ty × Operand)} {t x y : Ty} {a b : Nat} (ht : l.exactSize t < 2 ^ 64)
    (hp : l.pathOffset t p = some a) (hq : l.pathOffset t q = some b) (hx : typeAlong t p = some x)
    (hy : typeAlong t q = some y) (hpq : ¬ p.map Prod.snd <+: q.map Prod.snd)
    (hqp : ¬ q.map Prod.snd <+: p.map Prod.snd) : a + l.exactSize x ≤ b ∨ b + l.exactSize y ≤ a := by
  induction p generalizing q t a b with
  | nil => exact absurd List.nil_prefix hpq
  | cons step rest ih =>
    cases q with
    | nil => exact absurd List.nil_prefix hqp
    | cons step' rest' =>
      obtain ⟨ty, op⟩ := step
      obtain ⟨ty', op'⟩ := step'
      obtain ⟨i, c, d, part, rfl, hpart, hrest, rfl⟩ := pathOffset_cons ht hp
      obtain ⟨j, c', d', part', rfl, hpart', hrest', rfl⟩ := pathOffset_cons ht hq
      rw [hpart.typeAlong_cons] at hx
      rw [hpart'.typeAlong_cons] at hy
      have hend := hpart.fits
      have hend' := hpart'.fits
      have hfits := fits_of_pathOffset (by omega) hrest hx
      have hfits' := fits_of_pathOffset (by omega) hrest' hy
      rw [wrap_of_lt (by omega), wrap_of_lt (by omega)]
      rcases Nat.lt_trichotomy i j with hij | rfl | hij
      · have hordered := hpart.ordered hij hpart'
        omega
      · obtain ⟨rfl, rfl⟩ := hpart.unique hpart'
        simp only [List.map_cons, List.cons_prefix_cons, true_and] at hpq hqp
        have hrests := ih (by omega) hrest hrest' hx hy hpq hqp
        omega
      · have hordered := hpart'.ordered hij hpart
        omega

/-- **Paths address bits of their own.** Two index paths into a type whose size is a machine
word, of which neither continues the other, address ranges of bits of which one ends before
the other starts, and both ranges lie in the type. It is the indices that count, not the types
they are written with. -/
theorem elementOffset_disjoint (l : DataLayout) {t : Ty} (ht : l.exactSize t < 2 ^ 64) {p q : List (Ty × Operand)}
    {a b : Nat} (hp : l.elementOffset t p = some a) (hq : l.elementOffset t q = some b)
    (hpq : ¬ p.map Prod.snd <+: q.map Prod.snd) (hqp : ¬ q.map Prod.snd <+: p.map Prod.snd) :
    ∃ x y, Scope.elementType? t p = some x ∧ Scope.elementType? t q = some y ∧
      (a + l.sizeInBits x ≤ b ∨ b + l.sizeInBits y ≤ a) ∧
      a + l.sizeInBits x ≤ l.sizeInBits t ∧ b + l.sizeInBits y ≤ l.sizeInBits t := by
  obtain ⟨x, hx, hholds⟩ := holds_of_elementOffset ht hp
  obtain ⟨y, hy, hholds'⟩ := holds_of_elementOffset ht hq
  have hfits := hholds.fits
  have hfits' := hholds'.fits
  rw [sizeInBits_of_lt ht]
  refine ⟨x, y, hx, hy, ?_⟩
  rw [sizeInBits_of_lt (t := x) (by omega), sizeInBits_of_lt (t := y) (by omega)]
  obtain ⟨ty, rest, rfl, hrest⟩ := elementOffset_eq_some hp
  obtain ⟨ty', rest', rfl, hrest'⟩ := elementOffset_eq_some hq
  simp only [List.map_cons, List.cons_prefix_cons, true_and] at hpq hqp
  exact ⟨pathOffset_apart ht hrest hrest' hx hy hpq hqp, hfits, hfits'⟩

/-- A structure of a byte, an array and another structure. -/
def nested : Ty := .struct none [.int 8, .array 3 .double, .struct none [.int 1, .int 32]]

/-- The second element of the array, and the second field of the structure behind it, where
doubles are to stand at multiples of sixteen bytes. -/
theorem elementOffset_disjoint_nested :
    let l := (ofText "f64:128").1
    let p : List (Ty × Operand) := [(.int 32, .const (.int 0)), (.int 32, .const (.int 1)), (.int 64, .const (.int 1))]
    let q : List (Ty × Operand) := [(.int 32, .const (.int 0)), (.int 32, .const (.int 2)), (.int 32, .const (.int 1))]
    l.exactSize nested = 384 ∧ l.elementOffset nested p = some 192 ∧ l.elementOffset nested q = some 352 ∧
    ∃ x y, Scope.elementType? nested p = some x ∧ Scope.elementType? nested q = some y ∧
      (192 + l.sizeInBits x ≤ 352 ∨ 352 + l.sizeInBits y ≤ 192) ∧
      192 + l.sizeInBits x ≤ l.sizeInBits nested ∧ 352 + l.sizeInBits y ≤ l.sizeInBits nested :=
  ⟨rfl, rfl, rfl, elementOffset_disjoint _ (by decide) rfl rfl (by decide) (by decide)⟩

end DataLayout

end RangedIR
