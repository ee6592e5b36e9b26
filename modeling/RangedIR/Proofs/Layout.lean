/-
RangedIR.Proofs.Layout — what the entries of layout texts do.

An entry does the same to every layout: it sets the size of addresses, changes alignments or
has a problem. One with a problem changes no alignment, but an address entry whose alignment
is unusable has set the size by then. A size is a multiple of the alignment where it is
rounded up to it, and those of floats, doubles and addresses are not.
-/
import Mathlib.Data.List.Basic
import RangedIR.Proofs.Code.Parts

namespace RangedIR

open Text

/-- The type of what arrays, arrays of arrays and so on have as elements. -/
def Ty.innermost : Ty → Ty
  | .array _ e => e.innermost
  | t => t

namespace DataLayout

/-! ## 1. One entry -/

/-- The problem that an entry has. -/
def problem? (entry : List Char) : Option Problem := (default.applyEntry entry).2

/-- The size that an entry gives to addresses. -/
def addressBits? (entry : List Char) : Option Nat :=
  match splitAt ':' entry with
  | ('p' :: _) :: size :: _ :: _ => (bits entry size).toOption
  | _ => none

/-- The layout with another size of addresses. -/
def withPointerBits (l : DataLayout) (n : Nat) : DataLayout := { l with pointerBits := n }

/-- Every alignment that a layout lists has a property. -/
structure EachAlign (l : DataLayout) (P : Nat → Prop) : Prop where
  one : P 1
  ints : ∀ entry ∈ l.intAligns, P entry.2
  float : P l.floatAlign
  double : P l.doubleAlign
  pointer : P l.pointerAlign

/-- Every alignment is at least one byte, and the size of addresses is a machine word. -/
structure Aligned (l : DataLayout) : Prop extends l.EachAlign (0 < ·) where
  address : l.pointerBits < 2 ^ 64

/-- An action on layouts that does the same to all of them: it has the same problem or none,
it may set the size of addresses, and with a problem it does no more. -/
structure Uniform (size : Option Nat) (act : DataLayout → Applied) : Prop where
  problem : ∀ l l', (act l).2 = (act l').2
  resized : ∀ l n, act (l.withPointerBits n) = ((act l).1.withPointerBits (size.getD n), (act l).2)
  rejected : ∀ l, (act l).2.isSome = true → (act l).1 = l.withPointerBits (size.getD l.pointerBits)
  aligned : ∀ l, l.Aligned → (act l).1.Aligned

theorem lt_of_bits {e number : List Char} {n : Nat} (h : bits e number = .ok n) : n < 2 ^ 64 := by
  unfold bits unsigned? at h
  grind

theorem pos_of_bytes {e number : List Char} {a : Nat} (h : bytes e number = .ok a) : 0 < a := by
  unfold bytes at h
  split at h
  · cases h
  · split at h <;> cases h
    omega

theorem mem_setIntAlign {width align : Nat} {entry : Nat × Nat} {table : List (Nat × Nat)}
    (h : entry ∈ setIntAlign width align table) : entry = (width, align) ∨ entry ∈ table := by
  induction table with
  | nil => exact Or.inl (List.mem_singleton.mp h)
  | cons first rest ih =>
    rw [setIntAlign] at h
    grind

theorem uniform_keep (problem : Option Problem) : Uniform none fun l => (l, problem) :=
  ⟨fun _ _ => rfl, fun _ _ => rfl, fun _ _ => rfl, fun _ h => h⟩

theorem uniform_pointer (e size align : List Char) :
    Uniform (bits e size).toOption fun l => l.applyPointer e size align := by
  unfold applyPointer
  rcases hsize : bits e size with p | n
  · exact uniform_keep (some p)
  rcases hbytes : bytes e align with p | a
  · exact ⟨fun _ _ => rfl, fun _ _ => rfl, fun _ _ => rfl, fun _ h => { h with address := lt_of_bits hsize }⟩
  · exact ⟨fun _ _ => rfl, fun _ _ => rfl, nofun,
      fun _ h => { h with address := lt_of_bits hsize, pointer := pos_of_bytes hbytes }⟩

theorem uniform_int (e width align : List Char) : Uniform none fun l => l.applyInt e width align := by
  unfold applyInt
  rcases bits e width with p | w
  · exact uniform_keep (some p)
  rcases hbytes : bytes e align with p | a
  · exact uniform_keep (some p)
  refine ⟨fun _ _ => rfl, fun _ _ => rfl, nofun, fun l h => { h with ints := fun entry hentry => ?_ }⟩
  rcases mem_setIntAlign hentry with rfl | hold
  · exact pos_of_bytes hbytes
  · exact h.ints entry hold

theorem uniform_float (e width align : List Char) : Uniform none fun l => l.applyFloat e width align := by
  unfold applyFloat
  rcases bits e width with p | w
  · exact uniform_keep (some p)
  by_cases hw : w = 32 ∨ w = 64
  · simp only [if_pos hw]
    rcases hbytes : bytes e align with p | a
    · exact uniform_keep (some p)
    rcases hw with rfl | rfl
    · exact ⟨fun _ _ => rfl, fun _ _ => rfl, nofun, fun _ h => { h with float := pos_of_bytes hbytes }⟩
    · exact ⟨fun _ _ => rfl, fun _ _ => rfl, nofun, fun _ h => { h with double := pos_of_bytes hbytes }⟩
  · simp only [if_neg hw]
    exact uniform_keep _

theorem applyEntry_of_letter {e width : List Char} {letter : Char} {rest : List (List Char)}
    (h : splitAt ':' e = (letter :: width) :: rest) (hp : letter ≠ 'p') (hi : letter ≠ 'i') (hf : letter ≠ 'f') :
    addressBits? e = none ∧
      ∀ l : DataLayout, l.applyEntry e = (l, if isNeutral letter then none else some (.unrecognized e)) := by
  unfold addressBits? applyEntry
  rw [h]
  grind

theorem uniform_applyEntry (e : List Char) : Uniform (addressBits? e) fun l => l.applyEntry e := by
  rcases hsplit : splitAt ':' e with _ | ⟨_ | ⟨letter, width⟩, rest⟩
  · simp only [applyEntry, addressBits?, hsplit]
    exact uniform_keep _
  · simp only [applyEntry, addressBits?, hsplit]
    exact uniform_keep _
  by_cases hp : letter = 'p'
  · subst hp
    rcases rest with _ | ⟨size, _ | ⟨align, rest⟩⟩ <;> simp only [applyEntry, addressBits?, hsplit]
    · exact uniform_keep _
    · exact uniform_keep _
    · exact uniform_pointer e size align
  by_cases hi : letter = 'i'
  · subst hi
    rcases rest with _ | ⟨align, rest⟩ <;> simp only [applyEntry, addressBits?, hsplit]
    · exact uniform_keep _
    · exact uniform_int e width align
  by_cases hf : letter = 'f'
  · subst hf
    rcases rest with _ | ⟨align, rest⟩ <;> simp only [applyEntry, addressBits?, hsplit]
    · exact uniform_keep _
    · exact uniform_float e width align
  · simp only [applyEntry_of_letter hsplit hp hi hf]
    exact uniform_keep _

/-! ## 2. Entries with a problem -/

/-- The size of addresses behind some entries: the last one that was given. -/
def addressBits (entries : List (List Char)) (n : Nat) : Nat := entries.foldl (fun n e => (addressBits? e).getD n) n

/-- The text of some entries. -/
def dashed (entries : List (List Char)) : String := String.ofList (['-'].intercalate entries)

/-- The entries of a layout text that have no problem. -/
def accepted (spec : String) : List (List Char) := (entriesOf spec).filter fun e => (problem? e).isNone

theorem applyEntries_cons (l : DataLayout) (e : List Char) (rest : List (List Char)) : l.applyEntries (e :: rest) =
    (((l.applyEntry e).1.applyEntries rest).1, (l.applyEntry e).2.toList ++ ((l.applyEntry e).1.applyEntries rest).2) := rfl

theorem problem_applyEntry (l : DataLayout) (e : List Char) : (l.applyEntry e).2 = problem? e :=
  (uniform_applyEntry e).problem l default

theorem problems_applyEntries (entries : List (List Char)) : ∀ l : DataLayout,
    (l.applyEntries entries).2 = entries.filterMap problem? := by
  induction entries with
  | nil => exact fun _ => rfl
  | cons e rest ih =>
    intro l
    rw [applyEntries_cons, problem_applyEntry, ih, List.filterMap_cons]
    cases problem? e <;> rfl

/-- Entries that are left out because of a problem would have set the size of addresses at
most. -/
theorem applyEntries_filter (keep : List Char → Bool) (hkeep : ∀ e, keep e = false → (problem? e).isSome = true)
    (entries : List (List Char)) : ∀ (l : DataLayout) (n : Nat),
      ((l.withPointerBits n).applyEntries (entries.filter keep)).1 =
        (l.applyEntries entries).1.withPointerBits (addressBits (entries.filter keep) n) := by
  induction entries with
  | nil => exact fun _ _ => rfl
  | cons e rest ih =>
    intro l n
    have hrest := ih (l.applyEntry e).1
    rw [applyEntries_cons]
    cases hk : keep e with
    | true =>
      have hresized : (l.withPointerBits n).applyEntry e = _ := (uniform_applyEntry e).resized l n
      rw [List.filter_cons_of_pos hk, applyEntries_cons, hresized]
      exact hrest ((addressBits? e).getD n)
    | false =>
      have hrejected : (l.applyEntry e).1 = _ :=
        (uniform_applyEntry e).rejected l (problem_applyEntry l e ▸ hkeep e hk)
      rw [List.filter_cons_of_neg (by simp [hk])]
      rw [hrejected] at hrest ⊢
      exact hrest n

theorem pointerBits_applyEntries (l : DataLayout) (entries : List (List Char)) :
    (l.applyEntries entries).1.pointerBits = addressBits entries l.pointerBits := by
  have h := applyEntries_filter (fun _ => true) nofun entries l l.pointerBits
  rw [List.filter_eq_self.mpr fun _ _ => rfl] at h
  exact congrArg pointerBits h

theorem addressBits_filter (keep : List Char → Bool) {entries : List (List Char)}
    (h : ∀ e ∈ entries, keep e = false → addressBits? e = none) (n : Nat) :
    addressBits (entries.filter keep) n = addressBits entries n := by
  rw [addressBits, List.foldl_filter]
  refine List.foldl_ext _ _ _ fun n e he => ?_
  cases hk : keep e with
  | true => rfl
  | false => rw [h e he hk]; rfl

theorem splitAt_eq (sep : Char) (cs : List Char) : splitAt sep cs = cs.splitOn sep := by
  induction cs with
  | nil => rfl
  | cons c rest ih =>
    rw [splitAt, ih, List.splitOn_cons_eq_if_modifyHead]
    cases hrest : List.splitOn sep rest with
    | nil => exact absurd hrest (List.splitOn_ne_nil sep rest)
    | cons part parts => simp

theorem notMem_of_mem_splitAt {sep : Char} {cs part : List Char} (h : part ∈ splitAt sep cs) : sep ∉ part := by
  induction cs generalizing part with
  | nil => simp_all [splitAt]
  | cons c rest ih =>
    rw [splitAt] at h
    grind

theorem entriesOf_dashed {entries : List (List Char)} (h : ∀ e ∈ entries, e ≠ [] ∧ '-' ∉ e) :
    entriesOf (dashed entries) = entries := by
  unfold entriesOf dashed
  rw [String.toList_ofList, splitAt_eq]
  cases entries with
  | nil => rfl
  | cons e rest =>
    rw [List.splitOn_intercalate _ (fun e he => (h e he).2) nofun]
    exact List.filter_eq_self.mpr fun e he => by simp [(h e he).1]

theorem ofText_accepted (spec : String) : ofText (dashed (accepted spec)) = default.applyEntries (accepted spec) := by
  rw [ofText, entriesOf_dashed]
  intro e he
  obtain ⟨hmem, hne⟩ := List.mem_filter.mp (List.mem_filter.mp he).1
  exact ⟨by simpa using hne, notMem_of_mem_splitAt hmem⟩

/-! ## 3. Alignments -/

theorem Aligned.applyEntries {l : DataLayout} (h : l.Aligned) (entries : List (List Char)) :
    (l.applyEntries entries).1.Aligned := by
  induction entries generalizing l with
  | nil => exact h
  | cons e rest ih => exact ih ((uniform_applyEntry e).aligned l h)

theorem aligned_ofText (spec : String) : (ofText spec).1.Aligned :=
  Aligned.applyEntries ⟨⟨by decide, by decide, by decide, by decide, by decide⟩, by decide⟩ _

theorem EachAlign.intAlign {l : DataLayout} {P : Nat → Prop} (h : l.EachAlign P) (width : Nat) : P (l.intAlign width) := by
  unfold DataLayout.intAlign
  split
  · exact h.ints _ (List.mem_of_find?_eq_some ‹_›)
  · split
    · exact h.ints _ (List.mem_of_getLast? ‹_›)
    · exact h.one

mutual

/-- An alignment is one of those that a layout lists, or one. -/
theorem EachAlign.abiAlign {l : DataLayout} {P : Nat → Prop} (h : l.EachAlign P) : ∀ t, P (l.abiAlign t)
  | .void => h.one
  | .int width => h.intAlign width
  | .float => h.float
  | .double => h.double
  | .ptr _ => h.pointer
  | .array _ e => h.abiAlign e
  | .struct _ fields => h.fieldsAlign fields

theorem EachAlign.fieldsAlign {l : DataLayout} {P : Nat → Prop} (h : l.EachAlign P) : ∀ fields, P (l.fieldsAlign fields)
  | [] => h.one
  | t :: rest => by
    rw [DataLayout.fieldsAlign]
    rcases Nat.le_total (l.abiAlign t) (l.fieldsAlign rest) with hle | hle
    · rw [Nat.max_eq_right hle]
      exact h.fieldsAlign rest
    · rw [Nat.max_eq_left hle]
      exact h.abiAlign t

end

/-- **An entry with a problem changes the size of addresses at most.** The layout of a text is
that of its entries without a problem, but for the size of addresses, which is the last one
that any entry gives; it is the same layout if no entry with a problem gives one. The problems
told are those of the other entries, in order, and no alignment is zero. -/
theorem rejected_entries_spare_alignments (spec : String) :
    ofText (dashed (accepted spec)) =
      ((ofText spec).1.withPointerBits (addressBits (accepted spec) default.pointerBits), []) ∧
    (ofText spec).1.pointerBits = addressBits (entriesOf spec) default.pointerBits ∧
    ((∀ e ∈ entriesOf spec, (problem? e).isSome = true → addressBits? e = none) →
      (ofText (dashed (accepted spec))).1 = (ofText spec).1) ∧
    (ofText spec).2 = (entriesOf spec).filterMap problem? ∧
    (ofText spec).2.length + (accepted spec).length = (entriesOf spec).length ∧
    ∀ t, 1 ≤ (ofText spec).1.abiAlign t := by
  have hlayout : (default.applyEntries (accepted spec)).1 = (ofText spec).1.withPointerBits _ :=
    applyEntries_filter (fun e => (problem? e).isNone) (fun e he => by simpa using he) (entriesOf spec) default _
  have hbits : (ofText spec).1.pointerBits = _ := pointerBits_applyEntries default (entriesOf spec)
  have hproblems : (ofText spec).2 = _ := problems_applyEntries (entriesOf spec) default
  rw [ofText_accepted]
  refine ⟨Prod.ext hlayout ?_, hbits, fun h => ?_, hproblems, ?_, (aligned_ofText spec).abiAlign⟩
  · rw [problems_applyEntries, List.filterMap_eq_nil_iff]
    exact fun e he => by simpa using (List.mem_filter.mp he).2
  · rw [hlayout, addressBits_filter _ fun e he hk => h e he (by simpa using hk)]
    exact congrArg (ofText spec).1.withPointerBits hbits.symm
  · rw [hproblems, List.length_filterMap_eq_countP, accepted, ← List.countP_eq_length_filter]
    have hall := List.length_eq_countP_add_countP (fun e => (problem? e).isSome) (l := entriesOf spec)
    simp only [Bool.not_eq_true, Bool.decide_eq_false, Option.not_isSome] at hall
    exact hall.symm

/-- The alignment of seven bits is refused, and addresses have thirty-two bits from there on. -/
theorem refused_address_entry_resizes :
    problem? "p:32:7".toList = some (.notBytes "7".toList "p:32:7".toList) ∧ accepted "p:32:7" = [] ∧
      (ofText "p:32:7").1.sizeInBits (.ptr .void) = 32 ∧ (ofText (dashed [])).1.sizeInBits (.ptr .void) = 64 := by
  decide

/-! ## 4. Sizes and alignments -/

theorem dvd_roundUp {keep : Nat → Nat} {unit : Nat} (hkeep : ∀ n, unit ∣ n → unit ∣ keep n) (h : 0 < unit) (n : Nat) :
    unit ∣ roundUp keep n unit := by
  rw [roundUp, if_neg (by omega)]
  exact hkeep _ (Nat.dvd_mul_left _ _)

/-- The size of a type is a multiple of its alignment. -/
def Padded (l : DataLayout) (t : Ty) : Prop := 8 * l.abiAlign t ∣ l.sizeInBits t

instance (l : DataLayout) (t : Ty) : Decidable (l.Padded t) := inferInstanceAs (Decidable (_ ∣ _))

variable {l : DataLayout}

/-- Only floats, doubles and addresses can be without padding, and arrays through them, as long
as what is kept of a multiple of an alignment is one. -/
theorem Aligned.dvd_sizeWith (hl : l.Aligned) {k : Nat → Nat}
    (hkeep : ∀ t n, 8 * l.abiAlign t ∣ n → 8 * l.abiAlign t ∣ k n) : ∀ {t : Ty},
    (t.innermost.isFloating = true ∨ t.innermost.isPointer = true → l.Padded t.innermost) →
      8 * l.abiAlign t ∣ l.sizeWith k t
  | .void, _ => by simp only [sizeWith, Nat.dvd_zero]
  | .int width, _ => by
    have hpos := hl.intAlign width
    rw [sizeWith, Nat.max_eq_left (by omega)]
    exact dvd_roundUp (hkeep (.int width)) (Nat.mul_pos (by decide) hpos) width
  | .float, h | .double, h => h (Or.inl rfl)
  | .ptr _, h => h (Or.inr rfl)
  | .array _ e, h => by
    rw [sizeWith]
    exact hkeep e _ (Nat.dvd_mul_left_of_dvd (hl.dvd_sizeWith hkeep (t := e) h) _)
  | .struct name fields, _ => by
    rw [sizeWith]
    exact dvd_roundUp (hkeep (.struct name fields)) (Nat.mul_pos (by decide) (hl.fieldsAlign fields)) _

theorem Aligned.padded (hl : l.Aligned) {t : Ty} (ht : l.exactSize t < 2 ^ 64)
    (h : t.innermost.isFloating = true ∨ t.innermost.isPointer = true → l.Padded t.innermost) : l.Padded t := by
  rw [Padded, sizeInBits_of_lt ht]
  exact hl.dvd_sizeWith (fun _ _ hdvd => hdvd) h

theorem padded_scalar (h : 8 * l.floatAlign ∣ 32 ∧ 8 * l.doubleAlign ∣ 64 ∧ 8 * l.pointerAlign ∣ l.pointerBits) {t : Ty}
    (ht : t.isFloating = true ∨ t.isPointer = true) : l.Padded t := by
  cases t with
  | float => exact h.1
  | double => exact h.2.1
  | ptr _ => exact h.2.2
  | _ => cases ht <;> contradiction

theorem Aligned.padded_iff (hl : l.Aligned) : (∀ t, l.exactSize t < 2 ^ 64 → l.Padded t) ↔
    8 * l.floatAlign ∣ 32 ∧ 8 * l.doubleAlign ∣ 64 ∧ 8 * l.pointerAlign ∣ l.pointerBits := by
  refine ⟨fun h => ⟨?_, ?_, ?_⟩, fun h t ht => hl.padded ht (padded_scalar h)⟩
  · exact h .float (by simp only [exactSize, sizeWith]; decide)
  · exact h .double (by simp only [exactSize, sizeWith]; decide)
  · exact h (.ptr .void) hl.address

/-- By default machine words keep multiples of alignments. -/
theorem padded_default (t : Ty) : Padded default t := by
  refine (aligned_ofText "").dvd_sizeWith (k := wrap 64) (fun t n h => ?_) (padded_scalar (by decide))
  have hlisted : EachAlign default (· ∣ 8) := ⟨by decide, by decide, by decide, by decide, by decide⟩
  exact (Nat.dvd_mod_iff (Nat.dvd_trans (Nat.mul_dvd_mul_left 8 (hlisted.abiAlign t)) (by decide))).mpr h

theorem Aligned.sizeInBits_lt (hl : l.Aligned) (t : Ty) : l.sizeInBits t < 2 ^ 64 := by
  have hround : ∀ n unit, 0 < unit → roundUp (wrap 64) n unit < 2 ^ 64 := by
    intro n unit hpos
    rw [roundUp, if_neg (by omega)]
    exact wrap_lt 64 _
  unfold sizeInBits
  cases t with
  | void | float | double => simp only [sizeWith]; decide
  | int width => rw [sizeWith]; exact hround _ _ (by omega)
  | ptr _ => rw [sizeWith]; exact hl.address
  | array n e => rw [sizeWith]; exact wrap_lt 64 _
  | struct name fields =>
    rw [sizeWith]
    exact hround _ _ (Nat.mul_pos (by decide) (hl.fieldsAlign fields))

/-- Elements start at multiples of the alignment if their size is one. -/
theorem Aligned.padded_iff_elements (hl : l.Aligned) (t : Ty) : l.Padded t ↔ ∀ n i o,
    l.offsetInBits (.array n t) i = some o → i * l.sizeInBits t < 2 ^ 64 → 8 * l.abiAlign t ∣ o := by
  refine ⟨fun h n i o ho hlt => ?_, fun h => ?_⟩
  · rw [offsetInBits, offsetWith, Option.ite_none_right_eq_some] at ho
    rw [← Option.some.inj ho.2]
    exact (wrap_of_lt hlt).symm ▸ Nat.dvd_mul_left_of_dvd h i
  · have hlt : 1 * l.sizeInBits t < 2 ^ 64 := (Nat.one_mul _).symm ▸ hl.sizeInBits_lt t
    have hsecond := h 2 1 _ rfl hlt
    change _ ∣ wrap 64 (1 * l.sizeInBits t) at hsecond
    rwa [wrap_of_lt hlt, Nat.one_mul] at hsecond

/-- **Sizes with and without padding.** By default the size of every type is a multiple of its
alignment. In the layout of a text this holds of all types whose size is a machine word exactly
if it holds of floats, of doubles and of addresses. It holds of every such type that is not one
of these nor an array of them, and of an array if it holds of its innermost elements. Where it
holds of a type, and only there, the elements of all its arrays are aligned, as far as their
offsets are machine words. -/
theorem sizes_are_multiples_iff_scalars_are (spec : String) :
    (∀ t, Padded default t) ∧
    ((∀ t, (ofText spec).1.exactSize t < 2 ^ 64 → (ofText spec).1.Padded t) ↔
      8 * (ofText spec).1.floatAlign ∣ 32 ∧ 8 * (ofText spec).1.doubleAlign ∣ 64 ∧
      8 * (ofText spec).1.pointerAlign ∣ (ofText spec).1.pointerBits) ∧
    (∀ t, (ofText spec).1.exactSize t < 2 ^ 64 →
      (t.innermost.isFloating = true ∨ t.innermost.isPointer = true → (ofText spec).1.Padded t.innermost) →
      (ofText spec).1.Padded t) ∧
    ∀ t, (ofText spec).1.Padded t ↔ ∀ n i o, (ofText spec).1.offsetInBits (.array n t) i = some o →
      i * (ofText spec).1.sizeInBits t < 2 ^ 64 → 8 * (ofText spec).1.abiAlign t ∣ o := by
  have hl := aligned_ofText spec
  exact ⟨padded_default, hl.padded_iff, fun t => hl.padded, hl.padded_iff_elements⟩

/-- Floats that are to stand at multiples of eight bytes stand four bytes apart. Of bytes that
are to stand at multiples of three there can be so many that a machine word keeps eight bits. -/
theorem float_elements_unaligned :
    ¬ (ofText "f32:64").1.Padded .float ∧ (ofText "f32:64").1.abiAlign .float = 8 ∧
      (ofText "f32:64").1.offsetInBits (.array 2 .float) 1 = some 32 ∧
      (ofText "i8:24").1.sizeInBits (.array 768614336404564651 (.int 8)) = 8 := by
  decide

end DataLayout

end RangedIR
