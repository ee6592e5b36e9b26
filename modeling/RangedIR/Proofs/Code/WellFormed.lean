/-
RangedIR.Proofs.Code.WellFormed — functions in single-assignment form, and what the
rewriting operations do to them.

  §1 instructions with other operands;
  §2 uses and well-formed functions;
  §3 an instruction replaced by an operand;
  §4 instructions replaced one after the other;
  §5 a test for well-formed functions.
-/
import RangedIR.Optimize.Constants
import RangedIR.Proofs.Code.Paths
import RangedIR.Proofs.Semantics.Machine

namespace RangedIR

/-! ## 1. Instructions with other operands -/

namespace InstKind

variable (g h : Operand → Operand) (k : InstKind)

theorem mapOperands_id : k.mapOperands (fun op => op) = k := by
  cases k <;> simp [mapOperands]

theorem mapOperands_mapOperands : (k.mapOperands g).mapOperands h = k.mapOperands (h ∘ g) := by
  cases k with
  | elementPtr | call | phi => simp [mapOperands, Function.comp_def]
  | ret v => cases v <;> rfl
  | _ => rfl

@[simp] theorem operands_mapOperands : (k.mapOperands g).operands = k.operands.map g := by
  cases k with
  | elementPtr | call | phi => simp [mapOperands, operands, Function.comp_def]
  | ret v => cases v <;> rfl
  | _ => rfl

@[simp] theorem shape_mapOperands : (k.mapOperands g).shape = k.shape := mapOperands_mapOperands g _ k

@[simp] theorem isTerminator_mapOperands : (k.mapOperands g).isTerminator = k.isTerminator := by
  cases k <;> rfl

@[simp] theorem isPlain_mapOperands : (k.mapOperands g).isPlain = k.isPlain := by cases k <;> rfl

@[simp] theorem actsOnWorld_mapOperands : (k.mapOperands g).actsOnWorld = k.actsOnWorld := by cases k <;> rfl

@[simp] theorem successors_mapOperands : (k.mapOperands g).successors = k.successors := by cases k <;> rfl

@[simp] theorem events_mapOperands {V : Type} (values : List V) :
    (k.mapOperands g).events values = k.events values := by cases k <;> rfl

variable {g k}

/-- Only what works on the world is seen. -/
theorem events_eq_nil {V : Type} (h : k.actsOnWorld = false) (values : List V) : k.events values = [] := by
  cases k with
  | store | call => cases h
  | _ => rfl

theorem mapOperands_eq_phi {incoming : List (Operand × BlockId)} (heq : k.mapOperands g = .phi incoming) :
    ∃ old, k = .phi old ∧ incoming = old.map fun e => (g e.1, e.2) := by
  cases k with
  | phi old =>
    cases heq
    exact ⟨old, rfl, rfl⟩
  | _ => cases heq

theorem isPlain_iff : k.isPlain = true ↔ k.isTerminator = false ∧ ∀ incoming, k ≠ .phi incoming := by
  cases k <;> simp [isPlain, isTerminator]

end InstKind

/-! ## 2. Well-formed functions -/

namespace Function

/-- An instruction is used in a block: by an instruction that stands there, or by a phi
for the way in from there. -/
inductive UsedIn (f : Function) (j : InstId) : BlockId → Prop
  | plain {b : BlockId} {block : Block} {u : InstId} {k : InstKind} : f.blocks[b]? = some block →
      u ∈ block.insts → f.kind? u = some k → (∀ incoming, k ≠ .phi incoming) → .inst j ∈ k.operands →
      UsedIn f j b
  | phi {u : InstId} {incoming : List (Operand × BlockId)} {p : BlockId} : u ∈ f.layout →
      f.kind? u = some (.phi incoming) → (.inst j, p) ∈ incoming → UsedIn f j p

/-- An instruction stands in a block. -/
def StandsIn (f : Function) (i : InstId) (b : BlockId) : Prop :=
  ∃ block, f.blocks[b]? = some block ∧ i ∈ block.insts

/-- Every instruction that a block lists stands there only, is live and names the block. -/
structure Placed (f : Function) : Prop where
  nodup : f.layout.Nodup
  placed : ∀ {i : InstId} {b : BlockId}, f.StandsIn i b → ∃ inst, f.inst? i = some inst ∧ inst.block = b ∧ inst.erased = false

/-- What stands last in a block is a branch or a return. -/
def Ended (f : Function) : Prop :=
  ∀ block ∈ f.blocks, ∀ t, block.insts.getLast? = some t → ∃ k, f.kind? t = some k ∧ k.isTerminator = true

/-- A function in good order: every instruction stands in one place, in the block that it
names, and every block ends in its only branch or return. -/
structure Arranged (f : Function) : Prop extends Placed f where
  ends : ∀ {b : BlockId} {block : Block}, f.blocks[b]? = some block → ∃ body t k, block.insts = body ++ [t] ∧
    f.kind? t = some k ∧ k.isTerminator = true ∧ ∀ i ∈ body, ∀ k, f.kind? i = some k → k.isTerminator = false

/-- No way leads to a use around the block of the definition. -/
structure Dominated (f : Function) : Prop extends Arranged f where
  dominated : ∀ {j : InstId} {b : BlockId}, f.UsedIn j b → ∃ d, f.StandsIn j d ∧ ¬ f.Reached (some d) b

/-- A function in single-assignment form: definitions dominate their uses, and every phi
has a value for each predecessor of its block. -/
structure WellFormed (f : Function) : Prop extends Dominated f where
  covered : ∀ {i : InstId} {b : BlockId} {incoming : List (Operand × BlockId)}, f.StandsIn i b →
    f.kind? i = some (.phi incoming) → ∀ p, b ∈ f.successors p → ∃ op, (op, p) ∈ incoming

variable {f : Function} {i : InstId} {b : BlockId} {block : Block}

theorem mem_layout : i ∈ f.layout ↔ ∃ b, f.StandsIn i b := by
  unfold layout
  rw [List.mem_flatMap]
  constructor
  · rintro ⟨block, hblock, hi⟩
    obtain ⟨b, hb⟩ := List.mem_iff_getElem?.mp hblock
    exact ⟨b, block, hb, hi⟩
  · rintro ⟨b, block, hb, hi⟩
    exact ⟨block, List.mem_of_getElem? hb, hi⟩

theorem kind?_eq {inst : Inst} (h : f.inst? i = some inst) : f.kind? i = some inst.kind := by
  rw [kind?, h, Option.map_some]

theorem standsIn_of_terminator? (h : f.terminator? b = some i) : f.StandsIn i b := by
  simp only [terminator?, Option.bind_eq_bind, Option.bind_eq_some_iff, Option.ite_none_right_eq_some,
    Option.some.injEq] at h
  obtain ⟨block, hb, last, hlast, k, -, -, rfl⟩ := h
  exact ⟨block, hb, List.mem_of_getLast? hlast⟩

/-- An instruction stands in one block only. -/
theorem Placed.standsIn_unique (hf : f.Placed) {c : BlockId} (hb : f.StandsIn i b) (hc : f.StandsIn i c) : b = c := by
  obtain ⟨inst, hi, rfl, -⟩ := hf.placed hb
  obtain ⟨inst', hi', rfl, -⟩ := hf.placed hc
  rw [Option.some.inj (hi.symm.trans hi')]

namespace Arranged

theorem ended (hf : f.Arranged) : f.Ended := by
  intro block hblock t ht
  obtain ⟨b, hb⟩ := List.mem_iff_getElem?.mp hblock
  obtain ⟨body, t', k, hinsts, hk, hterm, -⟩ := hf.ends hb
  obtain rfl : t' = t := by simpa [hinsts] using ht
  exact ⟨k, hk, hterm⟩

/-- The last instruction of a block is its branch or return, and it is the only one. -/
theorem terminator?_eq (hf : f.Arranged) (hb : f.blocks[b]? = some block) :
    ∃ body t k, block.insts = body ++ [t] ∧ f.kind? t = some k ∧ k.isTerminator = true ∧
      f.terminator? b = some t ∧ f.successors b = k.successors ∧
      ∀ i ∈ body, ∀ k, f.kind? i = some k → k.isTerminator = false := by
  obtain ⟨body, t, k, hinsts, hk, hterm, hbody⟩ := hf.ends hb
  have hlast : block.insts.getLast? = some t := by simp [hinsts]
  have ht : f.terminator? b = some t := by simp [terminator?, hb, hlast, hk, hterm]
  exact ⟨body, t, k, hinsts, hk, hterm, ht, by simp [successors, ht, hk], hbody⟩

/-- A branch or return stands at the end of its block. -/
theorem eq_terminator (hf : f.Arranged) (hb : f.blocks[b]? = some block) {done rest : List InstId}
    (hsplit : block.insts = done ++ i :: rest) {k : InstKind} (hk : f.kind? i = some k)
    (hterm : k.isTerminator = true) : rest = [] ∧ f.terminator? b = some i ∧ f.successors b = k.successors := by
  obtain ⟨body, t, kt, hinsts, hkt, -, ht, hsucc, hbody⟩ := hf.terminator?_eq hb
  have hrest : rest = [] := by
    by_contra hne
    have hmem : i ∈ body := by
      have : body = (done ++ i :: rest).dropLast := by rw [← hsplit, hinsts]; simp
      rw [this, List.dropLast_append_cons, List.dropLast_cons_of_ne_nil hne]
      simp
    rw [hbody i hmem k hk] at hterm
    cases hterm
  subst hrest
  rw [hinsts] at hsplit
  obtain ⟨-, h⟩ := List.append_inj' hsplit rfl
  cases h
  rw [hk] at hkt
  cases hkt
  exact ⟨rfl, ht, hsucc⟩

end Arranged

/-! ## 3. An instruction replaced by an operand -/

section Replace

variable {c : BlockId} {op : Operand}

theorem inst?_replaceUses (u : InstId) :
    (f.replaceUses i op).inst? u = (f.inst? u).map fun inst =>
      if u ∈ f.layout then { inst with kind := inst.kind.mapOperands (substitute i op) } else inst := by
  unfold replaceUses inst?
  rw [List.getElem?_mapIdx]
  simp

theorem inst?_modifyInst (i u : InstId) (change : Inst → Inst) :
    (f.modifyInst i change).inst? u = (f.inst? u).map fun inst => if i = u then change inst else inst := by
  unfold modifyInst inst?
  rw [List.getElem?_modify]
  rfl

theorem inst?_erase (i u : InstId) : (f.erase i).inst? u = (f.inst? u).map fun inst =>
    if u = i then { inst with erased := true } else inst := by
  unfold erase
  split
  next hi =>
    by_cases hu : u = i
    · rw [hu, hi]
      rfl
    · simp [hu]
  next inst hi =>
    unfold inst?
    rw [List.getElem?_modify]
    congr 1
    funext inst
    by_cases hu : u = i
    · simp [hu]
    · simp [hu, Ne.symm hu]

/-- Only the block that an instruction names can list it, so it is taken out everywhere. -/
theorem Placed.blocks_erase (hf : f.Placed) (i : InstId) :
    (f.erase i).blocks = f.blocks.map fun block => { block with insts := block.insts.filter (· != i) } := by
  have hother : ∀ {b block}, f.blocks[b]? = some block → ¬ f.StandsIn i b →
      block.insts.filter (· != i) = block.insts := by
    intro b block hb hnot
    refine List.filter_eq_self.mpr fun u hu => bne_iff_ne.mpr ?_
    rintro rfl
    exact hnot ⟨block, hb, hu⟩
  refine List.ext_getElem? fun b => ?_
  rw [List.getElem?_map]
  cases hb : f.blocks[b]? with
  | none => cases hi : f.inst? i <;> simp [erase, hi, hb, List.getElem?_modify]
  | some block =>
    cases hi : f.inst? i with
    | none =>
      have hnot : ¬ f.StandsIn i b := fun hstands => by
        obtain ⟨inst, hinst, -⟩ := hf.placed hstands
        rw [hi] at hinst
        cases hinst
      simp [erase, hi, hb, hother hb hnot]
    | some inst =>
      by_cases hplace : inst.block = b
      · simp [erase, hi, hb, hplace]
      · have hnot : ¬ f.StandsIn i b := fun hstands => by
          obtain ⟨inst', hinst', hblock, -⟩ := hf.placed hstands
          rw [hi] at hinst'
          cases hinst'
          exact hplace hblock
        simp [erase, hi, hb, hplace, hother hb hnot]

theorem Placed.replaceUses (hf : f.Placed) (i : InstId) (op : Operand) : (f.replaceUses i op).Placed where
  nodup := hf.nodup
  placed {u b} hu := by
    obtain ⟨inst, hinst, hblock, herased⟩ := hf.placed hu
    refine ⟨_, by rw [inst?_replaceUses, hinst, Option.map_some], ?_, ?_⟩
    · rw [apply_ite Inst.block, ite_self, hblock]
    · rw [apply_ite Inst.erased, ite_self, herased]

section Erase

variable (hf : f.Placed)

include hf

theorem Placed.standsIn_erase {u : InstId} : (f.erase i).StandsIn u b ↔ u ≠ i ∧ f.StandsIn u b := by
  unfold StandsIn
  simp only [hf.blocks_erase i, List.getElem?_map, Option.map_eq_some_iff]
  constructor
  · rintro ⟨_, ⟨block, hb, rfl⟩, hu⟩
    obtain ⟨hu, hne⟩ := List.mem_filter.mp hu
    exact ⟨by simpa using hne, block, hb, hu⟩
  · rintro ⟨hne, block, hb, hu⟩
    exact ⟨_, ⟨block, hb, rfl⟩, List.mem_filter.mpr ⟨hu, by rwa [bne_iff_ne]⟩⟩

theorem Placed.layout_erase (i : InstId) : (f.erase i).layout = f.layout.filter (· != i) := by
  unfold layout
  rw [hf.blocks_erase, List.flatMap_map, List.filter_flatMap]

theorem Placed.erase (i : InstId) : (f.erase i).Placed where
  nodup := by
    rw [hf.layout_erase]
    exact hf.nodup.filter _
  placed {u b} hu := by
    obtain ⟨hne, hu⟩ := hf.standsIn_erase.mp hu
    obtain ⟨inst, hinst, hblock, herased⟩ := hf.placed hu
    exact ⟨inst, by rw [inst?_erase, hinst, Option.map_some, if_neg hne], hblock, herased⟩

end Erase

theorem Placed.replaceBy (hf : f.Placed) (i : InstId) (op : Operand) : (f.replaceBy i op).Placed :=
  (hf.replaceUses i op).erase i

variable {u : InstId}

theorem inst?_replaceBy (op : Operand) (hu : u ∈ f.layout) (hne : u ≠ i) :
    (f.replaceBy i op).inst? u =
      (f.inst? u).map fun inst => { inst with kind := inst.kind.mapOperands (substitute i op) } := by
  unfold replaceBy
  rw [inst?_erase, inst?_replaceUses, Option.map_map]
  congr 1
  funext inst
  simp [hu, hne]

theorem kind?_replaceBy (op : Operand) (hu : u ∈ f.layout) (hne : u ≠ i) :
    (f.replaceBy i op).kind? u = (f.kind? u).map fun k => k.mapOperands (substitute i op) := by
  unfold kind?
  rw [inst?_replaceBy op hu hne, Option.map_map, Option.map_map]
  rfl

theorem phi_of_replaceBy {incoming : List (Operand × BlockId)} (hu : u ∈ f.layout) (hne : u ≠ i)
    (hk : (f.replaceBy i op).kind? u = some (.phi incoming)) :
    ∃ old, f.kind? u = some (.phi old) ∧ incoming = old.map fun e => (substitute i op e.1, e.2) := by
  rw [kind?_replaceBy op hu hne] at hk
  obtain ⟨k, hku, hphi⟩ := Option.map_eq_some_iff.mp hk
  obtain ⟨old, rfl, heq⟩ := InstKind.mapOperands_eq_phi hphi
  exact ⟨old, hku, heq⟩

variable (hf : f.Placed)

include hf

theorem blocks_replaceBy_eq_map (op : Operand) : (f.replaceBy i op).blocks =
    f.blocks.map fun block => { block with insts := block.insts.filter (· != i) } :=
  (hf.replaceUses i op).blocks_erase i

theorem blocks_replaceBy (op : Operand) (b : BlockId) :
    (f.replaceBy i op).blocks[b]? =
      (f.blocks[b]?).map fun block => { block with insts := block.insts.filter (· != i) } := by
  rw [blocks_replaceBy_eq_map hf, List.getElem?_map]

theorem standsIn_replaceBy :
    (f.replaceBy i op).StandsIn u b ↔ u ≠ i ∧ f.StandsIn u b :=
  (hf.replaceUses i op).standsIn_erase

/-- The instructions still to be looked at stand in blocks after one of them was replaced. -/
theorem standsIn_rest {rest : List InstId} (hnot : i ∉ rest) (hids : ∀ j ∈ rest, ∃ b, f.StandsIn j b)
    (op : Operand) : ∀ j ∈ rest, ∃ b, (f.replaceBy i op).StandsIn j b := by
  intro j hj
  obtain ⟨b, hb⟩ := hids j hj
  refine ⟨b, (standsIn_replaceBy hf).mpr ⟨?_, hb⟩⟩
  rintro rfl
  exact hnot hj

theorem mem_layout_replaceBy :
    u ∈ (f.replaceBy i op).layout ↔ u ≠ i ∧ u ∈ f.layout := by
  rw [mem_layout, mem_layout]
  simp only [standsIn_replaceBy hf]
  exact ⟨fun ⟨b, h1, h2⟩ => ⟨h1, b, h2⟩, fun ⟨h1, b, h2⟩ => ⟨b, h1, h2⟩⟩

theorem length_blocks_replaceBy (op : Operand) : (f.replaceBy i op).blocks.length = f.blocks.length := by
  rw [blocks_replaceBy_eq_map hf, List.length_map]

omit hf in
/-- What stands last in a block still stands there after another instruction was replaced. -/
theorem getLast?_replaceBy (hends : f.Ended) (op : Operand)
    (hnot : ∀ k, f.kind? i = some k → k.isTerminator = false) (hb : f.blocks[b]? = some block) :
    (block.insts.filter (· != i)).getLast? = block.insts.getLast? ∧
      ∀ t, block.insts.getLast? = some t → ∃ k, f.kind? t = some k ∧ k.isTerminator = true ∧
        (f.replaceBy i op).kind? t = some (k.mapOperands (substitute i op)) := by
  cases hlast : block.insts.getLast? with
  | none =>
    rw [List.getLast?_eq_none_iff.mp hlast]
    exact ⟨rfl, fun t ht => by cases ht⟩
  | some t =>
    obtain ⟨k, hk, hterm⟩ := hends block (List.mem_of_getElem? hb) t hlast
    obtain ⟨body, hinsts⟩ := List.getLast?_eq_some_iff.mp hlast
    have hti : t ≠ i := by
      rintro rfl
      rw [hnot k hk] at hterm
      cases hterm
    refine ⟨by simp [hinsts, hti], fun t' ht' => ?_⟩
    cases ht'
    refine ⟨k, hk, hterm, ?_⟩
    rw [kind?_replaceBy op (mem_layout.mpr ⟨b, block, hb, by simp [hinsts]⟩) hti, hk]
    rfl

theorem ended_replaceBy (hends : f.Ended) (op : Operand)
    (hnot : ∀ k, f.kind? i = some k → k.isTerminator = false) : (f.replaceBy i op).Ended := by
  intro block hblock t ht
  obtain ⟨b, hb⟩ := List.mem_iff_getElem?.mp hblock
  rw [blocks_replaceBy hf] at hb
  obtain ⟨old, hold, rfl⟩ := Option.map_eq_some_iff.mp hb
  obtain ⟨hlast, hkind⟩ := getLast?_replaceBy hends op hnot hold
  obtain ⟨k, -, hterm, hk⟩ := hkind t (hlast ▸ ht)
  exact ⟨_, hk, by simpa using hterm⟩

/-- An instruction that is no branch leaves the control flow as it is. -/
theorem terminator?_replaceBy (hends : f.Ended) (op : Operand)
    (hnot : ∀ k, f.kind? i = some k → k.isTerminator = false) (b : BlockId) :
    (f.replaceBy i op).terminator? b = f.terminator? b ∧ (f.replaceBy i op).successors b = f.successors b := by
  cases hb : f.blocks[b]? with
  | none =>
    have hb' : (f.replaceBy i op).blocks[b]? = none := by rw [blocks_replaceBy hf, hb]; rfl
    simp [successors, terminator?, hb, hb']
  | some block =>
    have hb' : (f.replaceBy i op).blocks[b]? = some { block with insts := block.insts.filter (· != i) } := by
      rw [blocks_replaceBy hf, hb]
      rfl
    obtain ⟨hsame, hkind⟩ := getLast?_replaceBy hends op hnot hb
    cases hlast : block.insts.getLast? with
    | none =>
      rw [hlast] at hsame
      simp [successors, terminator?, hb, hb', hlast, hsame]
    | some t =>
      obtain ⟨k, hk, hterm, hk'⟩ := hkind t hlast
      rw [hlast] at hsame
      have ht : f.terminator? b = some t := by simp [terminator?, hb, hlast, hk, hterm]
      have ht' : (f.replaceBy i op).terminator? b = some t := by simp [terminator?, hb', hsame, hk', hterm]
      exact ⟨ht'.trans ht.symm, by simp [successors, ht, ht', hk, hk']⟩

theorem reached_replaceBy (hends : f.Ended)
    (hnot : ∀ k, f.kind? i = some k → k.isTerminator = false) {avoid : Option BlockId} :
    (f.replaceBy i op).Reached avoid b → f.Reached avoid b := by
  have hlen := length_blocks_replaceBy (i := i) hf op
  intro h
  induction h with
  | entry h0 hne => exact .entry (hlen ▸ h0) hne
  | step _ hsucc hlt hne ih =>
    rw [(terminator?_replaceBy hf hends op hnot _).2] at hsucc
    exact ih.step hsucc (hlen ▸ hlt) hne

/-- After the replacement an instruction is used where it was used, or where the replaced
one was. -/
theorem usedIn_replaceBy {j : InstId} (hop : op ≠ .inst i)
    (h : (f.replaceBy i op).UsedIn j b) : j ≠ i ∧ (f.UsedIn j b ∨ (f.UsedIn i b ∧ op = .inst j)) := by
  have hsub : ∀ {x : Operand}, substitute i op x = .inst j →
      j ≠ i ∧ (x = .inst j ∨ (x = .inst i ∧ op = .inst j)) := by
    intro x hx
    unfold substitute at hx
    split_ifs at hx with hxi
    · have hx' : x = .inst i := by
        cases x <;> simp_all [Operand.inst?]
      refine ⟨?_, Or.inr ⟨hx', hx⟩⟩
      rintro rfl
      exact hop hx
    · refine ⟨?_, Or.inl hx⟩
      rintro rfl
      exact hxi (by rw [hx]; rfl)
  cases h with
  | @plain _ block u k hb hu hk hphi hmem =>
    obtain ⟨hui, old, hold, hu⟩ := (standsIn_replaceBy hf).mp ⟨block, hb, hu⟩
    rw [kind?_replaceBy op (mem_layout.mpr ⟨b, old, hold, hu⟩) hui] at hk
    obtain ⟨k, hku, rfl⟩ := Option.map_eq_some_iff.mp hk
    rw [InstKind.operands_mapOperands] at hmem
    obtain ⟨x, hx, hxj⟩ := List.mem_map.mp hmem
    have hphi' : ∀ incoming, k ≠ .phi incoming := by
      rintro incoming rfl
      exact hphi _ rfl
    obtain ⟨hji, rfl | ⟨rfl, hopj⟩⟩ := hsub hxj
    · exact ⟨hji, Or.inl (.plain hold hu hku hphi' hx)⟩
    · exact ⟨hji, Or.inr ⟨.plain hold hu hku hphi' hx, hopj⟩⟩
  | @phi u incoming _ hu hk hmem =>
    obtain ⟨hui, hu⟩ := (mem_layout_replaceBy hf).mp hu
    obtain ⟨old, hku, rfl⟩ := phi_of_replaceBy hu hui hk
    obtain ⟨⟨x, p⟩, hx, heq⟩ := List.mem_map.mp hmem
    obtain ⟨hxj, rfl⟩ := Prod.mk.inj heq
    obtain ⟨hji, rfl | ⟨rfl, hopj⟩⟩ := hsub hxj
    · exact ⟨hji, Or.inl (.phi hu hku hx)⟩
    · exact ⟨hji, Or.inr ⟨.phi hu hku hx, hopj⟩⟩

omit hf in
/-- Replacing an instruction that ends no block keeps a function in order. -/
theorem arranged_replaceBy (hf : f.Arranged) (op : Operand)
    (hnot : ∀ k, f.kind? i = some k → k.isTerminator = false) : (f.replaceBy i op).Arranged where
  toPlaced := hf.toPlaced.replaceBy i op
  ends {b block} hb := by
    rw [blocks_replaceBy hf.toPlaced] at hb
    obtain ⟨old, hold, rfl⟩ := Option.map_eq_some_iff.mp hb
    obtain ⟨body, t, k, hinsts, hk, hterm, hbody⟩ := hf.ends hold
    have hlisted : ∀ u ∈ old.insts, u ∈ f.layout := fun u hu => mem_layout.mpr ⟨b, old, hold, hu⟩
    have hti : t ≠ i := by
      rintro rfl
      rw [hnot k hk] at hterm
      cases hterm
    refine ⟨body.filter (· != i), t, k.mapOperands (substitute i op), ?_, ?_, by simpa using hterm, ?_⟩
    · simp [hinsts, hti]
    · rw [kind?_replaceBy op (hlisted t (by simp [hinsts])) hti, hk]
      rfl
    · intro u hu k' hk'
      obtain ⟨hu, hne⟩ := List.mem_filter.mp hu
      rw [bne_iff_ne] at hne
      rw [kind?_replaceBy op (hlisted u (by simp [hinsts, hu])) hne] at hk'
      obtain ⟨k'', hk'', rfl⟩ := Option.map_eq_some_iff.mp hk'
      simpa using hbody u hu k'' hk''

omit hf in
/-- Replacing an instruction keeps definitions before uses, provided that the new operand
is defined on every way to a use of the old one. -/
theorem dominated_replaceBy (hf : f.Dominated)
    (hnot : ∀ k, f.kind? i = some k → k.isTerminator = false) (hop : op ≠ .inst i)
    (hdom : ∀ j b, op = .inst j → f.UsedIn i b → ∃ d, f.StandsIn j d ∧ ¬ f.Reached (some d) b) :
    (f.replaceBy i op).Dominated where
  toArranged := arranged_replaceBy hf.toArranged op hnot
  dominated {j b} hj := by
    obtain ⟨hji, hused⟩ := usedIn_replaceBy hf.toPlaced hop hj
    have hold : ∃ d, f.StandsIn j d ∧ ¬ f.Reached (some d) b := by
      rcases hused with hused | ⟨hused, hopj⟩
      · exact hf.dominated hused
      · exact hdom j b hopj hused
    obtain ⟨d, hd, hreach⟩ := hold
    exact ⟨d, (standsIn_replaceBy hf.toPlaced).mpr ⟨hji, hd⟩, fun h => hreach (reached_replaceBy hf.toPlaced hf.ended hnot h)⟩

omit hf in
theorem wellFormed_replaceBy (hf : f.WellFormed)
    (hnot : ∀ k, f.kind? i = some k → k.isTerminator = false) (hop : op ≠ .inst i)
    (hdom : ∀ j b, op = .inst j → f.UsedIn i b → ∃ d, f.StandsIn j d ∧ ¬ f.Reached (some d) b) :
    (f.replaceBy i op).WellFormed where
  toDominated := dominated_replaceBy hf.toDominated hnot hop hdom
  covered {u b incoming} hu hk p hp := by
    obtain ⟨hne, hu⟩ := (standsIn_replaceBy hf.toPlaced).mp hu
    obtain ⟨old, hku, rfl⟩ := phi_of_replaceBy (mem_layout.mpr ⟨b, hu⟩) hne hk
    rw [(terminator?_replaceBy hf.toPlaced hf.ended op hnot p).2] at hp
    obtain ⟨x, hx⟩ := hf.covered hu hku p hp
    exact ⟨substitute i op x, List.mem_map.mpr ⟨(x, p), hx, rfl⟩⟩

end Replace

variable {id : FuncId} {c : Constant}

/-- The instructions that are replaced by literals. -/
theorem literalResult?_eq_some {b : Bounds} :
    f.literalResult? id b i = some c ↔ ∃ inst op lhs rhs r, f.inst? i = some inst ∧ inst.kind = .binary op lhs rhs ∧
      b.get? (.inst id i) = some r ∧ inst.erased = false ∧ r.isSingleton = true ∧ Constant.forType? inst.ty r.lo = some c := by
  constructor
  · intro h
    unfold literalResult? at h
    obtain ⟨inst, hinst, h⟩ := Option.bind_eq_some_iff.mp h
    split at h
    next op lhs rhs hkind =>
      obtain ⟨r, hr, h⟩ := Option.bind_eq_some_iff.mp h
      split_ifs at h with hone
      rw [Bool.and_eq_true, Bool.not_eq_true'] at hone
      exact ⟨inst, op, lhs, rhs, r, hinst, hkind, hr, hone.1, hone.2, h⟩
    next => cases h
  · rintro ⟨inst, op, lhs, rhs, r, hinst, hkind, hr, hlive, hone, hc⟩
    simp [literalResult?, hinst, hkind, hr, hlive, hone, hc]

theorem isTerminator_of_literalResult? {b : Bounds}
    (h : f.literalResult? id b i = some c) (k : InstKind) (hk : f.kind? i = some k) : k.isTerminator = false := by
  obtain ⟨inst, op, lhs, rhs, r, hinst, hkind, -⟩ := literalResult?_eq_some.mp h
  rw [kind?_eq hinst, hkind] at hk
  cases hk
  rfl

/-! ## 4. Instructions replaced one after the other -/

/-- The value of a phi that has no other. -/
def onlyValue? (f : Function) (i : InstId) : Option Operand := (f.kind? i).bind (onlyIncoming? i)

theorem phi_of_onlyValue? (h : f.onlyValue? i = some op) : ∃ p, f.kind? i = some (.phi [(op, p)]) ∧ op ≠ .inst i := by
  obtain ⟨k, hk, h⟩ := Option.bind_eq_some_iff.mp h
  unfold onlyIncoming? at h
  split at h
  · rename_i p
    split_ifs at h with hself
    cases h
    refine ⟨p, hk, ?_⟩
    rintro rfl
    exact hself rfl
  · cases h

/-- Each of some instructions gives way to an operand, if there is one for it. -/
def replaceEach (choose : Function → InstId → Option Operand) : List InstId → Function → Function
  | [], f => f
  | i :: rest, f => replaceEach choose rest ((choose f i).elim f (f.replaceBy i))

theorem collapsePhis_fst (ids : List InstId) : ∀ f, (collapsePhis ids f).1 = replaceEach onlyValue? ids f := by
  induction ids with
  | nil => exact fun _ => rfl
  | cons i rest ih =>
    intro f
    rw [collapsePhis, replaceEach, ← ih, onlyValue?]
    cases (f.kind? i).bind (onlyIncoming? i) <;> rfl

theorem substituteIn_fst (id : FuncId) (b : Bounds) (ids : List InstId) :
    ∀ f, (substituteIn id b ids f).1 = replaceEach (fun f i => (f.literalResult? id b i).map .const) ids f := by
  induction ids with
  | nil => exact fun _ => rfl
  | cons i rest ih =>
    intro f
    rw [substituteIn, replaceEach, ← ih]
    cases f.literalResult? id b i <;> rfl

variable {choose : Function → InstId → Option Operand}

/-- What holds of a function and the instructions still to be looked at. -/
theorem replaceEach_induction {P : List InstId → Function → Prop}
    (hnone : ∀ g i rest, P (i :: rest) g → P rest g)
    (hsome : ∀ g i rest op, P (i :: rest) g → choose g i = some op → P rest (g.replaceBy i op)) (ids : List InstId) :
    ∀ g, P ids g → P [] (replaceEach choose ids g) := by
  induction ids with
  | nil => exact fun _ hg => hg
  | cons i rest ih =>
    intro g hg
    rw [replaceEach]
    cases hop : choose g i with
    | none => exact ih g (hnone g i rest hg)
    | some op => exact ih _ (hsome g i rest op hg hop)

/-- Instructions that are all different are looked at where they stand. -/
theorem replaceEach_standing {P : Function → Prop} (hplaced : ∀ g, P g → g.Placed)
    (hreplace : ∀ g i b op, P g → g.StandsIn i b → choose g i = some op → P (g.replaceBy i op)) (ids : List InstId)
    (g : Function) (hnodup : ids.Nodup) (hids : ∀ i ∈ ids, ∃ b, g.StandsIn i b) (hg : P g) :
    P (replaceEach choose ids g) := by
  refine (replaceEach_induction (P := fun ids g => ids.Nodup ∧ (∀ i ∈ ids, ∃ b, g.StandsIn i b) ∧ P g) ?_ ?_ ids g
    ⟨hnodup, hids, hg⟩).2.2
  · rintro g i rest ⟨hnodup, hids, hg⟩
    exact ⟨hnodup.of_cons, (List.forall_mem_cons.mp hids).2, hg⟩
  · rintro g i rest op ⟨hnodup, hids, hg⟩ hop
    obtain ⟨⟨b, hi⟩, hrest⟩ := List.forall_mem_cons.mp hids
    obtain ⟨hnot, hnodup⟩ := List.nodup_cons.mp hnodup
    exact ⟨hnodup, standsIn_rest (hplaced g hg) hnot hrest op, hreplace g i b op hg hi hop⟩

/-! ## 5. A test for well-formed functions -/

/-- The instructions that are used, each with the block where it is needed. -/
def uses (f : Function) : List (InstId × BlockId) :=
  f.blocks.zipIdx.flatMap fun (block, b) => block.insts.flatMap fun u =>
    match f.kind? u with
    | some (.phi incoming) => incoming.filterMap fun (op, p) => op.inst?.map fun j => (j, p)
    | some k => k.operands.filterMap fun op => op.inst?.map fun j => (j, b)
    | none => []

/-- The instructions of a block are in their places, the last one and no other ends the
block, and the phis have values for all predecessors. -/
def checksBlock (f : Function) (block : Block) (b : BlockId) : Bool :=
  block.insts.all (fun i => (f.inst? i).any fun inst => inst.block == b && !inst.erased) &&
  block.insts.getLast?.any (fun t => (f.kind? t).any (·.isTerminator)) &&
  block.insts.dropLast.all (fun i => (f.kind? i).all (!·.isTerminator)) &&
  block.insts.all fun i =>
    match f.kind? i with
    | some (.phi incoming) =>
      (List.range f.blocks.length).all fun p => !(f.successors p).contains b || incoming.any (·.2 == p)
    | _ => true

/-- A test for well-formed functions. -/
def isWellFormed (f : Function) : Bool :=
  decide f.layout.Nodup && f.blocks.zipIdx.all (fun (block, b) => f.checksBlock block b) &&
  f.uses.all fun (j, b) => f.blocks.zipIdx.any fun (block, d) =>
    block.insts.contains j && !(f.reachableBlocks (some d)).contains b

theorem mem_uses {j : InstId} (h : f.UsedIn j b) : (j, b) ∈ f.uses := by
  unfold uses
  cases h with
  | @plain _ block u k hb hu hk hphi hmem =>
    refine List.mem_flatMap.mpr ⟨(block, b), List.mk_mem_zipIdx_iff_getElem?.mpr hb, List.mem_flatMap.mpr ⟨u, hu, ?_⟩⟩
    rw [hk]
    cases k with
    | phi incoming => exact absurd rfl (hphi incoming)
    | _ => exact List.mem_filterMap.mpr ⟨.inst j, hmem, rfl⟩
  | @phi u incoming _ hu hk hmem =>
    obtain ⟨b', block, hblock, hu⟩ := mem_layout.mp hu
    refine List.mem_flatMap.mpr ⟨(block, b'), List.mk_mem_zipIdx_iff_getElem?.mpr hblock,
      List.mem_flatMap.mpr ⟨u, hu, ?_⟩⟩
    rw [hk]
    exact List.mem_filterMap.mpr ⟨(.inst j, b), hmem, rfl⟩

theorem wellFormed_of_isWellFormed (h : f.isWellFormed = true) : f.WellFormed := by
  unfold isWellFormed at h
  simp only [Bool.and_eq_true, decide_eq_true_eq, List.all_eq_true] at h
  obtain ⟨⟨hnodup, hblocks⟩, huses⟩ := h
  have hblock : ∀ {b : BlockId} {block : Block}, f.blocks[b]? = some block → f.checksBlock block b = true :=
    fun hb => hblocks (_, _) (List.mk_mem_zipIdx_iff_getElem?.mpr hb)
  simp only [checksBlock, Bool.and_eq_true] at hblock
  refine ⟨⟨⟨⟨hnodup, ?_⟩, ?_⟩, ?_⟩, ?_⟩
  · rintro i b ⟨block, hb, hi⟩
    obtain ⟨inst, hinst, hplace⟩ := (Option.any_eq_true _ _).mp (List.all_eq_true.mp (hblock hb).1.1.1 i hi)
    rw [Bool.and_eq_true, beq_iff_eq, Bool.not_eq_true'] at hplace
    exact ⟨inst, hinst, hplace.1, hplace.2⟩
  · intro b block hb
    obtain ⟨t, ht, hterm⟩ := (Option.any_eq_true _ _).mp (hblock hb).1.1.2
    obtain ⟨k, hk, hterm⟩ := (Option.any_eq_true _ _).mp hterm
    refine ⟨block.insts.dropLast, t, k, ?_, hk, hterm, ?_⟩
    · exact (List.dropLast_append_getLast? t ht).symm
    · intro i hi k' hk'
      have := List.all_eq_true.mp (hblock hb).1.2 i hi
      rw [hk'] at this
      simpa using this
  · intro j b hj
    obtain ⟨⟨block, d⟩, hd, hdom⟩ := List.any_eq_true.mp (huses (j, b) (mem_uses hj))
    rw [Bool.and_eq_true, List.contains_iff_mem, Bool.not_eq_true'] at hdom
    refine ⟨d, ⟨block, List.mk_mem_zipIdx_iff_getElem?.mp hd, hdom.1⟩, fun hr => ?_⟩
    rw [← mem_reachableBlocks, ← List.contains_iff_mem, hdom.2] at hr
    cases hr
  · rintro i b incoming ⟨block, hb, hi⟩ hk p hp
    have hphi := List.all_eq_true.mp (hblock hb).2 i hi
    rw [hk] at hphi
    have := List.all_eq_true.mp hphi p (List.mem_range.mpr (lt_of_mem_successors hp))
    rw [List.contains_iff_mem.mpr hp] at this
    simpa using this

end Function

end RangedIR
