/-
RangedIR.Proofs.Analysis.Derivation — addresses that are computed from addresses.

A view and a part are computed from another address, and so on down to an address that is
not. All of them point into one object. The places and unions of a frame follow these
computations.
-/
import RangedIR.Proofs.Analysis.Record
import RangedIR.Proofs.Analysis.Roots

namespace RangedIR

open Relation

namespace Function

variable {f : Function} {id : FuncId} {n : Nat} {op op' : Operand} {r : ValueKey}

/-! ## 1. Objects -/

/-- A view or part points into the object of the address that it is computed from. -/
theorem addressRoot_of_next (h : f.next? op = some op') : f.addressRoot id op = f.addressRoot id op' := by
  rw [addressRoot, addressRoot, root?_of_next h]

variable {key : ValueKey} {a b : ValueKey} {i : InstId} {target : ValueKey}

theorem keyRoot_of_operand (h : ValueKey.ofOperand? id op = some key) :
    f.keyRoot id key = f.addressRoot id op := by
  cases op with
  | inst i => cases h; exact if_pos rfl
  | arg i | global g => cases h; rfl
  | const c | undef => cases h

/-- An address of a function is computed from another one. -/
structure Derives (f : Function) (id : FuncId) (a b : ValueKey) : Prop where
  intro ::
  exists_operand : ∃ i op, a = .inst id i ∧ f.next? (.inst i) = some op ∧ ValueKey.ofOperand? id op = some b

theorem Derives.keyRoot (h : f.Derives id a b) : f.keyRoot id a = f.keyRoot id b := by
  obtain ⟨i, op, rfl, hnext, hb⟩ := h.exists_operand
  rw [keyRoot_of_operand hb, ← addressRoot_of_next hnext]
  exact if_pos rfl

theorem keyRoot_of_derived (h : ReflTransGen (f.Derives id) a b) : f.keyRoot id a = f.keyRoot id b := by
  induction h with
  | refl => rfl
  | tail _ hlast ih => exact ih.trans hlast.keyRoot

theorem operand_of_object (h : f.object? id op = some r) : ValueKey.ofOperand? id op = some r := by
  cases op with
  | inst i =>
    rw [object?] at h
    split at h
    · exact h
    · cases h
  | _ => exact h

theorem derived_of_rootWithin (h : f.rootWithin id n op = some (some r)) :
    ∃ key, ValueKey.ofOperand? id op = some key ∧ ReflTransGen (f.Derives id) key r := by
  induction n generalizing op with
  | zero => cases h
  | succ n ih =>
    cases hnext : f.next? op with
    | none =>
      rw [rootWithin_of_last hnext] at h
      exact ⟨r, operand_of_object (Option.some.inj h), .refl⟩
    | some base =>
      rw [rootWithin_of_next hnext] at h
      obtain ⟨key, hkey, hderived⟩ := ih h
      obtain ⟨i, -, rfl, -⟩ := Follows.exists_inst hnext
      exact ⟨_, rfl, .head ⟨i, base, rfl, hnext, hkey⟩ hderived⟩

/-- An address is computed from its object, step by step, or is the object itself. -/
theorem derived_of_keyRoot (h : f.keyRoot id key = some r) : ReflTransGen (f.Derives id) key r := by
  cases key with
  | inst g i =>
    by_cases hg : g = id
    · subst hg
      rw [Function.keyRoot, if_pos rfl, addressRoot, Option.join_eq_some_iff] at h
      obtain ⟨_, hkey, hderived⟩ := derived_of_rootWithin h
      exact Option.some.inj hkey ▸ hderived
    · rw [Function.keyRoot, if_neg hg] at h
      rw [Option.some.inj h]
  | arg | global =>
    cases h
    exact .refl

theorem derives_view {v : Operand} {src : Ty} (hk : f.kind? i = some (.view v src))
    (hsrc : src.isPointer = true) (htarget : ValueKey.ofOperand? id v = some target) :
    f.Derives id (.inst id i) target :=
  ⟨i, v, rfl, by simp [next?, hk, hsrc], htarget⟩

theorem derives_elementPtr {inbounds : Bool} {source baseTy : Ty} {base : Operand}
    {indices : List (Ty × Operand)}
    (hk : f.kind? i = some (.elementPtr inbounds source base baseTy indices))
    (htarget : ValueKey.ofOperand? id base = some target) : f.Derives id (.inst id i) target :=
  ⟨i, base, rfl, by simp [next?, hk], htarget⟩

end Function

/-! ## 2. Places -/

/-- A live view of an address. -/
def Function.IsView (f : Function) (i : InstId) : Prop :=
  i ∈ f.layout ∧ ∃ v src, f.kind? i = some (.view v src) ∧ src.isPointer = true

/-- Addresses have places at addresses that they are computed from; what stands for a place is
computed from it; and a union is a place that a view is computed from. -/
structure Frame.Record.Traced (r : Frame.Record) : Prop where
  places : r.places.All fun a place => TransGen (r.body.function.Derives r.body.id) a place.1
  slots : r.slots.All fun place key => ReflTransGen (r.body.function.Derives r.body.id) key place.1
  unions : ∀ root ∈ r.unionRoots, ∃ i, r.body.function.IsView i ∧
    TransGen (r.body.function.Derives r.body.id) (.inst r.body.id i) root

/-- Only the function of a body matters. -/
theorem Frame.Record.Traced.body {r : Frame.Record} (hr : r.Traced) {body : Frame.Body} (hid : body.id = r.body.id)
    (hfunction : body.function = r.body.function) : Traced { r with body := body } := by
  obtain ⟨hplaces, hslots, hunions⟩ := hr
  rw [← hid, ← hfunction] at hplaces hslots hunions
  exact ⟨hplaces, hslots, hunions⟩

namespace Frame

variable {f : Frame} (h : f.record.Traced) {addr : ValueKey}

include h

theorem Record.Traced.locate : ReflTransGen (f.function.Derives f.id) addr (f.aliases.locate addr).1 := by
  unfold AliasTable.locate
  cases hp : f.aliases.places.find? addr with
  | none => exact .refl
  | some place => exact (h.places.find? hp).to_reflTransGen

/-- The key under which the value at an address is kept is the address itself, or both are
computed from one address. -/
theorem Record.Traced.slot : f.aliases.slot addr = addr ∨ ∃ place, f.aliases.places.find? addr = some place ∧
    TransGen (f.function.Derives f.id) addr place.1 ∧
    ReflTransGen (f.function.Derives f.id) (f.aliases.slot addr) place.1 := by
  unfold AliasTable.slot
  cases hp : f.aliases.places.find? addr with
  | none => exact Or.inl rfl
  | some place =>
    dsimp only
    cases hs : f.aliases.slots.find? place with
    | none => exact Or.inl rfl
    | some key => exact Or.inr ⟨place, rfl, h.places.find? hp, h.slots.find? hs⟩

/-- An address and the key under which its value is kept point into one object. -/
theorem Record.Traced.keyRoot_slot : f.keyRoot (f.aliases.slot addr) = f.keyRoot addr := by
  rcases Record.Traced.slot h with heq | ⟨place, -, haddr, hslot⟩
  · rw [heq]
  · exact (Function.keyRoot_of_derived hslot).trans (Function.keyRoot_of_derived haddr.to_reflTransGen).symm

variable {s : State} {i : InstId} {target : ValueKey}

omit h in
theorem traced_registerView (hs : s.frame.record.Traced)
    (hview : s.frame.function.IsView i) (hderives : s.frame.function.Derives s.frame.id (.inst s.frame.id i) target) :
    (s.withAliases (·.registerView (.inst s.frame.id i) target)).frame.record.Traced := by
  have hroot : TransGen (s.frame.function.Derives s.frame.id) (.inst s.frame.id i)
      (s.frame.aliases.locate target).1 := .head' hderives (Record.Traced.locate hs)
  refine ⟨hs.places.insert hroot, hs.slots, fun root hmem => ?_⟩
  rcases (s.frame.aliases.mem_keys_registerView _ target root).mp hmem with rfl | hold
  · exact ⟨i, hview, hroot⟩
  · exact hs.unions root hold

omit h in
theorem traced_registerField (hs : s.frame.record.Traced) (bits : Nat)
    (hderives : s.frame.function.Derives s.frame.id (.inst s.frame.id i) target) :
    (s.withAliases (·.registerField (.inst s.frame.id i) target bits)).frame.record.Traced := by
  have hroot : TransGen (s.frame.function.Derives s.frame.id) (.inst s.frame.id i)
      (s.frame.aliases.locate target).1 := .head' hderives (Record.Traced.locate hs)
  refine ⟨hs.places.insert hroot, ?_, hs.unions⟩
  change Table.All _ (if _ then s.frame.aliases.slots else _)
  split_ifs
  · exact hs.slots
  · exact hs.slots.insert .refl
  · exact hs.slots.insert hroot.to_reflTransGen

end Frame

/-! ## 4. States that are reached -/

namespace State

variable {s : State} {ctx : Context}

/-- Views and parts enter places that they are computed from; nothing else does. -/
theorem traced_transfer (hs : s.frame.record.Traced) (descend : Descent) {i : InstId} {inst : Inst}
    (hi : i ∈ s.frame.function.layout) (hinst : s.frame.function.inst? i = some inst) :
    (s.transfer ctx descend i inst).1.frame.record.Traced := by
  have hk : s.frame.function.kind? i = some inst.kind := by rw [Function.kind?, hinst, Option.map_some]
  rcases record_transfer_cases s ctx descend i inst with ⟨body, hid, hfunction, h⟩ |
    ⟨v, src, target, hkind, hsrc, htarget, h⟩ | ⟨inbounds, source, base, baseTy, indices, target, bits, hkind, htarget, -, h⟩
  · rw [h]
    exact hs.body hid hfunction
  · rw [h]
    rw [hkind] at hk
    exact Frame.traced_registerView hs ⟨hi, v, src, hk, hsrc⟩ (Function.derives_view hk hsrc htarget)
  · rw [h]
    rw [hkind] at hk
    exact Frame.traced_registerField hs bits (Function.derives_elementPtr hk htarget)

/-- In every state that is reached, the places of addresses follow their computation. -/
theorem Reachable.traced {depth : Nat} (h : s.Reachable ctx depth) : s.frame.record.Traced :=
  Reachable.record_induction (fun _ _ => ⟨Table.all_empty, Table.all_empty, fun root hroot => by cases hroot⟩)
    (fun hid hfunction hr => hr.body hid hfunction)
    (fun descend _ _ hi hinst hs => traced_transfer hs descend hi hinst) h

end State

end RangedIR
