/-
RangedIR.Proofs.Analysis.Aliases — what a table of addresses knows of its history.

Addresses are entered as views and fields of others, unions are written and forgotten, and what
the unions held at some time is put back. If addresses are entered before they are used, two of
them outside of unions have one slot exactly if they have one place. What is read of a union
comes from its last write, in the history that was put back last. Places and the distance from
a write to a read are machine words.
-/
import RangedIR.Proofs.Analysis.Record

namespace RangedIR.AliasTable

variable {t : AliasTable}

/-! ## 1. Slots of places -/

theorem contains_registerField (t : AliasTable) (field base : ValueKey) (bits : Nat) (place : Place)
    (h : place = ((t.locate base).1, wrap 64 ((t.locate base).2 + bits)) ∨ t.slots.contains place = true) :
    (t.registerField field base bits).slots.contains place = true := by
  unfold registerField
  dsimp only
  split_ifs with hcontains
  all_goals rcases h with rfl | h
  · exact hcontains
  · exact h
  all_goals
    rw [Table.contains_eq, Table.find?_insert]
    split_ifs
    · rfl
    · first | exact h | contradiction

/-- A place that an address has been entered at belongs to a union or has a slot, and the slot
at the start of a root is the root. Offsets are machine words. -/
structure SlottedIn (roots : List ValueKey) (places : Table ValueKey Place) (slots : Table Place ValueKey) : Prop where
  entered : places.All fun _ place => place.1 ∈ roots ∨ slots.contains place = true
  first : slots.All fun place key => place.2 = 0 → key = place.1
  words : places.All fun _ place => place.2 < 2 ^ 64

abbrev Slotted (t : AliasTable) : Prop := SlottedIn t.unions.keys t.places t.slots

theorem SlottedIn.locate_lt (h : t.Slotted) (addr : ValueKey) : (t.locate addr).2 < 2 ^ 64 := by
  unfold locate
  cases hfind : t.places.find? addr with
  | none => exact Nat.two_pow_pos 64
  | some place => exact h.words.find? hfind

theorem SlottedIn.registerView (h : t.Slotted) (view target : ValueKey) : (t.registerView view target).Slotted := by
  have hroots := t.mem_keys_registerView view target
  refine ⟨Table.All.insert (h.entered.imp fun _ place hplace => ?_) ?_, h.first, h.words.insert (h.locate_lt target)⟩
  · exact hplace.imp_left fun hroot => (hroots _).mpr (Or.inr hroot)
  · exact Or.inl ((hroots _).mpr (Or.inl rfl))

theorem SlottedIn.registerField (h : t.Slotted) (field base : ValueKey) (bits : Nat) :
    (t.registerField field base bits).Slotted := by
  have hslots := t.contains_registerField field base bits
  refine ⟨Table.All.insert (h.entered.imp fun _ place hplace => ?_) ?_, ?_, h.words.insert (wrap_lt 64 _)⟩
  · exact hplace.imp_right fun hslot => hslots place (Or.inr hslot)
  · exact Or.inr (hslots _ (Or.inl rfl))
  · change Table.All _ (if _ then t.slots else _)
    split_ifs with hcontains hzero
    · exact h.first
    · exact h.first.insert fun _ => rfl
    · exact h.first.insert fun hzero' => absurd hzero' hzero

variable {addr : ValueKey}

/-- Outside of unions, the place of an address decides under which key its value is kept. -/
theorem SlottedIn.slot_eq (h : t.Slotted) (haddr : (t.locate addr).1 ∉ t.unions.keys) :
    t.slot addr = (t.slots.find? (t.locate addr)).getD (t.locate addr).1 := by
  unfold locate at haddr ⊢
  unfold slot
  cases hfind : t.places.find? addr with
  | none =>
    cases hslot : t.slots.find? (addr, 0) with
    | none => simp [hslot]
    | some key => simpa [hslot] using (h.first.find? hslot rfl).symm
  | some place =>
    rw [hfind, Option.getD_some] at haddr
    obtain ⟨key, hkey⟩ := Option.isSome_iff_exists.mp ((h.entered.find? hfind).resolve_left haddr)
    have hkey : t.slots.find? place = some key := hkey
    simp [hkey]

/-! ## 2. Histories -/

/-- What is done to a table. -/
inductive Step where
  | view (addr target : ValueKey)
  | field (addr base : ValueKey) (bits : Nat)
  | write (addr : ValueKey) (kind : Option ScalarKind) (value : Option Bound)
  | invalidate (addr : ValueKey)
  | invalidateAll

def Step.apply (t : AliasTable) : Step → AliasTable
  | view addr target => t.registerView addr target
  | field addr base bits => t.registerField addr base bits
  | write addr kind value => t.recordWrite addr kind value
  | invalidate addr => t.invalidate addr
  | invalidateAll => t.invalidateAll

/-- How a table has come about. What the unions held at the end of some history can be put
back, be it one that was gone through on the way or any other. -/
inductive History where
  | start
  | step (before : History) (s : Step)
  | restore (before saved : History)

def History.table : History → AliasTable
  | start => .empty
  | step before s => s.apply before.table
  | restore before saved => before.table.restoreUnions saved.table.unions

/-- An address that is entered some bits behind another one. -/
structure Link where
  addr : ValueKey
  base : ValueKey
  bits : Nat

def Step.link? : Step → Option Link
  | view addr target => some ⟨addr, target, 0⟩
  | field addr base bits => some ⟨addr, base, bits⟩
  | _ => none

/-- The addresses that have been entered, the last one first. -/
def History.links : History → List Link
  | start => []
  | step before s => s.link?.toList ++ before.links
  | restore before _ => before.links

/-- Only views and fields change more than what unions hold. -/
theorem apply_of_unlinked {s : Step} (h : s.link? = none) (t : AliasTable) :
    s.apply t = { t with unions := (s.apply t).unions } ∧ (s.apply t).unions.keys = t.unions.keys := by
  cases s with
  | view | field => cases h
  | write addr kind value => exact ⟨t.recordWrite_eq addr kind value, t.keys_recordWrite addr kind value⟩
  | invalidate addr => exact ⟨t.recordWrite_eq addr none none, t.keys_recordWrite addr none none⟩
  | invalidateAll => exact ⟨rfl, Table.keys_mapValues _ _⟩

/-- The place some bits behind another one. -/
def Link.place (l : Link) (base : Place) : Place := (base.1, wrap 64 (base.2 + l.bits))

theorem locate_apply {s : Step} {l : Link} (h : s.link? = some l) (ht : t.Slotted) (key : ValueKey) :
    (s.apply t).locate key = if l.addr = key then l.place (t.locate l.base) else t.locate key := by
  have hplaces : (s.apply t).places = t.places.insert l.addr (l.place (t.locate l.base)) := by
    cases s with
    | view addr target =>
      cases h
      rw [Link.place, Nat.add_zero, wrap_of_lt (ht.locate_lt target)]
      rfl
    | field => cases h; rfl
    | _ => cases h
  rw [locate, hplaces, Table.find?_insert]
  split_ifs <;> rfl

/-! ## 3. Addresses that are entered before they are used -/

/-- No address is entered twice, or after it has served as a base. A base is looked up before
the address is entered, so none is a base of itself. -/
structure Orderly (links : List Link) : Prop where
  once : links.Pairwise fun later earlier => later.addr ≠ earlier.addr ∧ later.addr ≠ earlier.base
  own : ∀ l ∈ links, l.addr ≠ l.base

/-- A key that stands as a root in the table. -/
def IsRoot (t : AliasTable) (root : ValueKey) : Prop :=
  (∃ addr offset, t.places.find? addr = some (root, offset)) ∨ root ∈ t.unions.keys ∨
    ∃ offset, (root, offset) ∈ t.slots.keys

/-- A key whose place is settled: it has been entered or used, and will not be entered again. -/
def Settled (links : List Link) (t : AliasTable) (key : ValueKey) (place : Place) : Prop :=
  t.locate key = place ∧ ∃ l ∈ links, l.addr = key ∨ l.base = key

/-- All roots are settled at their own start, the slot of a place at that place, and an
address some bits behind its base. -/
structure Canonical (links : List Link) (t : AliasTable) : Prop extends Slotted t where
  roots : t.places.All fun _ place => t.Settled links place.1 (place.1, 0)
  unions : ∀ root ∈ t.unions.keys, t.Settled links root (root, 0)
  slots : t.slots.All fun place key => t.Settled links place.1 (place.1, 0) ∧ t.Settled links key place
  links : ∀ l ∈ links, ∃ place, t.Settled links l.base place ∧ t.Settled links l.addr (l.place place)

variable {links : List Link}

theorem Canonical.withUnions (h : t.Canonical links) {unions : Table ValueKey UnionState}
    (hkeys : unions.keys = t.unions.keys) : Canonical links { t with unions := unions } :=
  ⟨⟨by simpa only [hkeys] using h.entered, h.first, h.words⟩, h.roots, hkeys ▸ h.unions, h.slots, h.links⟩

theorem Canonical.link (h : t.Canonical links) {s : Step} {l : Link} (hs : s.link? = some l)
    (hnew : ∀ l' ∈ links, l.addr ≠ l'.addr ∧ l.addr ≠ l'.base) (hown : l.addr ≠ l.base) :
    (s.apply t).Canonical (l :: links) := by
  have hsettled {key : ValueKey} {place : Place} (hkey : t.Settled links key place) :
      (s.apply t).Settled (l :: links) key place := by
    obtain ⟨hplace, l', hl', hmention⟩ := hkey
    refine ⟨?_, l', List.mem_cons_of_mem _ hl', hmention⟩
    rw [locate_apply hs h.toSlottedIn, if_neg, hplace]
    rintro rfl
    exact hmention.elim (fun heq => (hnew l' hl').1 heq.symm) fun heq => (hnew l' hl').2 heq.symm
  have hbase : (s.apply t).Settled (l :: links) l.base (t.locate l.base) :=
    ⟨by rw [locate_apply hs h.toSlottedIn, if_neg hown], l, List.mem_cons_self, Or.inr rfl⟩
  have haddr : (s.apply t).Settled (l :: links) l.addr (l.place (t.locate l.base)) :=
    ⟨by rw [locate_apply hs h.toSlottedIn, if_pos rfl], l, List.mem_cons_self, Or.inl rfl⟩
  have hroot : (s.apply t).Settled (l :: links) (t.locate l.base).1 ((t.locate l.base).1, 0) := by
    cases hp : t.places.find? l.base with
    | none =>
      have hself : t.locate l.base = (l.base, 0) := by rw [locate, hp, Option.getD_none]
      simpa only [hself] using hbase
    | some place =>
      rw [locate, hp, Option.getD_some]
      exact hsettled (h.roots.find? hp)
  have hroots := h.roots.imp fun _ _ => hsettled
  have hslots : t.slots.All fun place key => (s.apply t).Settled (l :: links) place.1 (place.1, 0) ∧
      (s.apply t).Settled (l :: links) key place := h.slots.imp fun _ _ hslot => ⟨hsettled hslot.1, hsettled hslot.2⟩
  have hlinks : ∀ l' ∈ l :: links, ∃ place, (s.apply t).Settled (l :: links) l'.base place ∧
      (s.apply t).Settled (l :: links) l'.addr (l'.place place) := by
    intro l' hl'
    rcases List.mem_cons.mp hl' with rfl | hold
    · exact ⟨_, hbase, haddr⟩
    · exact (h.links l' hold).imp fun _ hplace => ⟨hsettled hplace.1, hsettled hplace.2⟩
  cases s with
  | view addr target =>
    cases hs
    refine ⟨h.registerView addr target, hroots.insert hroot, fun root hmem => ?_, hslots, hlinks⟩
    rcases (t.mem_keys_registerView addr target root).mp hmem with rfl | hold
    · exact hroot
    · exact hsettled (h.unions root hold)
  | field addr base bits =>
    cases hs
    refine ⟨h.registerField addr base bits, hroots.insert hroot, fun root hmem => hsettled (h.unions root hmem),
      ?_, hlinks⟩
    change Table.All _ (if _ then t.slots else _)
    split_ifs with hcontains hzero
    · exact hslots
    · refine hslots.insert ⟨hroot, ?_⟩
      dsimp only at hzero
      rwa [hzero]
    · exact hslots.insert ⟨hroot, haddr⟩
  | write | invalidate | invalidateAll => cases hs

theorem History.canonical {h : History} (horder : Orderly h.links) : h.table.Canonical h.links := by
  induction h with
  | start => exact ⟨⟨Table.all_empty, Table.all_empty, Table.all_empty⟩, Table.all_empty, nofun, Table.all_empty, nofun⟩
  | restore before saved ih => exact (ih horder).withUnions (Table.keys_mapValues _ _)
  | step before s ih =>
    unfold links at horder ⊢
    unfold table
    cases hs : s.link? with
    | none =>
      rw [hs] at horder
      obtain ⟨heq, hkeys⟩ := apply_of_unlinked hs before.table
      rw [heq]
      exact (ih horder).withUnions hkeys
    | some l =>
      rw [hs] at horder
      obtain ⟨hnew, honce⟩ := List.pairwise_cons.mp horder.once
      have hbefore := ih ⟨honce, fun l' hl' => horder.own l' (List.mem_cons_of_mem _ hl')⟩
      exact hbefore.link hs hnew (horder.own l List.mem_cons_self)

theorem isUnion_eq_false : t.isUnion addr = false ↔ (t.locate addr).1 ∉ t.unions.keys := by
  rw [Table.mem_keys, Bool.not_eq_true]
  rfl

/-- The slot of an address outside of unions has the place of the address. -/
theorem Canonical.locate_slot (h : t.Canonical links)
    (haddr : t.isUnion addr = false) : t.locate (t.slot addr) = t.locate addr := by
  unfold slot
  cases hfind : t.places.find? addr with
  | none => rfl
  | some place =>
    have hplace : t.locate addr = place := by rw [locate, hfind, Option.getD_some]
    rw [isUnion_eq_false, hplace] at haddr
    obtain ⟨key, hkey⟩ := Option.isSome_iff_exists.mp ((h.entered.find? hfind).resolve_left haddr)
    dsimp only
    rw [hkey, hplace]
    exact (h.slots.find? hkey).2.1

/-- **Slots identify places.** If addresses are entered before they are used, two addresses
outside of unions have the same slot exactly if they have the same place. Every root is at the
start of itself, and every address is as many bits behind its base as it was entered, counted
as a machine word. -/
theorem slot_eq_iff_locate_eq (h : History) (horder : Orderly h.links) :
    (∀ a b, h.table.isUnion a = false → h.table.isUnion b = false →
      (h.table.slot a = h.table.slot b ↔ h.table.locate a = h.table.locate b)) ∧
    (∀ root, h.table.IsRoot root → h.table.locate root = (root, 0)) ∧
    ∀ l ∈ h.links, h.table.locate l.addr =
      ((h.table.locate l.base).1, wrap 64 ((h.table.locate l.base).2 + l.bits)) := by
  have hcanonical := History.canonical horder
  refine ⟨fun a b ha hb => ⟨fun heq => ?_, fun heq => ?_⟩, ?_, fun l hl => ?_⟩
  · rw [← hcanonical.locate_slot ha, heq, hcanonical.locate_slot hb]
  · rw [hcanonical.slot_eq (isUnion_eq_false.mp ha), hcanonical.slot_eq (isUnion_eq_false.mp hb), heq]
  · rintro root (⟨addr, offset, hfind⟩ | hunion | ⟨offset, hslot⟩)
    · exact (hcanonical.roots.find? hfind).1
    · exact (hcanonical.unions root hunion).1
    · obtain ⟨key, hkey⟩ := Option.isSome_iff_exists.mp (Table.mem_keys.mp hslot)
      exact (hcanonical.slots.find? hkey).1.1
  · obtain ⟨place, hbase, haddr⟩ := hcanonical.links l hl
    rw [haddr.1, hbase.1, Link.place]

/-- Two fields at the same place of one object, one of them through a third field, and another
object that is seen as two types and written. -/
def crossing : History :=
  [Step.field (.arg 0 1) (.arg 0 0) 32, .field (.arg 0 2) (.arg 0 1) 32, .view (.arg 0 4) (.global 0),
    .write (.global 0) (some .i32) (some ⟨1.0, 2.0⟩), .field (.arg 0 3) (.arg 0 0) 64].foldl .step .start

theorem slot_eq_iff_locate_eq_crossing : Orderly crossing.links ∧ crossing.table.isUnion (.global 0) = true ∧
    crossing.table.slot (.arg 0 2) = crossing.table.slot (.arg 0 3) := by
  have horder : Orderly crossing.links := ⟨by decide, by decide⟩
  exact ⟨horder, rfl, ((slot_eq_iff_locate_eq crossing horder).1 _ _ rfl rfl).mpr rfl⟩

/-! ## 4. What unions hold -/

/-- The steps behind what the unions hold, the last one first, each with the table that it was
made on. What is put back continues the history that it was saved in. -/
def History.continued : History → List (AliasTable × Step)
  | start => []
  | step before s => (before.table, s) :: before.continued
  | restore _ saved => saved.continued

/-- Whether a step writes or forgets the union of a root. -/
def Step.touches (t : AliasTable) (root : ValueKey) : Step → Bool
  | write addr _ _ | invalidate addr => (t.locate addr).1 == root
  | invalidateAll => true
  | view _ _ | field _ _ _ => false

/-- The last step that touches a root is a write of a value of some kind at some offset of it. -/
def History.LastWrite (h : History) (root : ValueKey) (kind : ScalarKind) (offset : Nat) (value : Bound) : Prop :=
  ∃ later t addr earlier, h.continued = later ++ (t, .write addr (some kind) (some value)) :: earlier ∧
    t.locate addr = (root, offset) ∧ ∀ e ∈ later, e.2.touches e.1 root = false

section Typed

variable {root : ValueKey} {kind : ScalarKind} {offset : Nat} {value : Bound}

/-- A union holds what was written last. -/
theorem typed_of_recordWrite {addr : ValueKey} {k : Option ScalarKind} {v : Option Bound}
    (h : (t.recordWrite addr k v).unions.find? root = some (.typed kind offset value)) :
    ((t.locate addr).1 == root) = false ∧ t.unions.find? root = some (.typed kind offset value) ∨
      k = some kind ∧ v = some value ∧ t.locate addr = (root, offset) := by
  rw [find?_recordWrite] at h
  split_ifs at h with hroot
  · obtain ⟨_, -, hwritten⟩ := Option.map_eq_some_iff.mp h
    cases k <;> cases v <;> cases hwritten
    exact Or.inr ⟨rfl, rfl, Prod.ext hroot rfl⟩
  · exact Or.inl ⟨beq_false_of_ne hroot, h⟩

theorem typed_of_apply {s : Step} (h : (s.apply t).unions.find? root = some (.typed kind offset value)) :
    s.touches t root = false ∧ t.unions.find? root = some (.typed kind offset value) ∨
      ∃ addr, s = .write addr (some kind) (some value) ∧ t.locate addr = (root, offset) := by
  cases s with
  | view addr target =>
    refine Or.inl ⟨rfl, ?_⟩
    change (if _ then t.unions else _).find? root = _ at h
    split_ifs at h
    · exact h
    · rw [Table.find?_insert] at h
      split_ifs at h
      · cases h
      · exact h
  | field addr base bits => exact Or.inl ⟨rfl, h⟩
  | write addr k v =>
    refine (typed_of_recordWrite h).imp_right ?_
    rintro ⟨rfl, rfl, hplace⟩
    exact ⟨addr, rfl, hplace⟩
  | invalidate addr => exact (typed_of_recordWrite h).imp_right fun hnone => by cases hnone.1
  | invalidateAll =>
    obtain ⟨_, -, hforgotten⟩ := Option.map_eq_some_iff.mp ((Table.find?_mapValues _ _ root).symm.trans h)
    cases hforgotten

theorem History.lastWrite_of_typed {h : History}
    (htyped : h.table.unions.find? root = some (.typed kind offset value)) : h.LastWrite root kind offset value := by
  induction h with
  | start => cases htyped
  | step before s ih =>
    rcases typed_of_apply htyped with ⟨hs, hbefore⟩ | ⟨addr, rfl, hplace⟩
    · obtain ⟨later, t, addr, earlier, heq, hplace, hlater⟩ := ih hbefore
      refine ⟨(before.table, s) :: later, t, addr, earlier, by rw [continued, heq, List.cons_append], hplace, ?_⟩
      exact List.forall_mem_cons.mpr ⟨hs, hlater⟩
    · exact ⟨[], before.table, addr, before.continued, rfl, hplace, nofun⟩
  | restore before saved _ ih =>
    -- a union that was not saved holds nothing known
    obtain ⟨_, -, hsaved⟩ := Option.map_eq_some_iff.mp ((Table.find?_mapValues _ _ root).symm.trans htyped)
    rw [Table.getD] at hsaved
    cases hfind : saved.table.unions.find? root with
    | none =>
      rw [hfind] at hsaved
      cases hsaved
    | some state =>
      rw [hfind] at hsaved
      exact ih (hfind.trans (congrArg some hsaved))

end Typed

/-- What a read of some bits gives of a value of one kind, written where it starts. -/
def glimpse (value : Bound) (written : ScalarKind) (start offset : Nat) (kind : ScalarKind) : Option Bound :=
  if kind = written ∧ offset = start then some value else value.lane written (offset - start) kind

theorem read?_of_typed {written : ScalarKind} {start : Nat} {value : Bound}
    (h : t.state? addr = some (.typed written start value)) (kind : ScalarKind) : t.read? addr kind =
      if (t.locate addr).2 < start ∨ 2 ^ 32 ≤ (t.locate addr).2 - start then none
      else glimpse value written start (t.locate addr).2 kind := by
  unfold state? at h
  unfold read? glimpse
  dsimp only
  rw [h]
  dsimp only
  by_cases hlt : (t.locate addr).2 < start
  · rw [if_pos hlt, if_pos (Or.inl hlt)]
  rw [if_neg hlt]
  by_cases hsame : kind = written ∧ (t.locate addr).2 = start
  · have hnear : ¬ 2 ^ 32 ≤ (t.locate addr).2 - start := by
      rw [hsame.2, Nat.sub_self]
      decide
    rw [if_pos (by simp [hsame]), if_neg (not_or.mpr ⟨hlt, hnear⟩), if_pos hsame]
  · rw [if_neg (by simpa [@eq_comm _ written kind] using hsame)]
    simp only [hlt, false_or, if_neg hsame]

/-- Of a value near enough, those bits are seen that it has, or where the sum overflows. -/
theorem covered_of_glimpse {written kind : ScalarKind} {start : Nat} {value answer : Bound}
    (hstate : t.state? addr = some (.typed written start value)) (hle : start ≤ (t.locate addr).2)
    (hnear : (t.locate addr).2 - start < 2 ^ 32)
    (h : glimpse value written start (t.locate addr).2 kind = some answer) :
    (t.locate addr).2 + kind.bits ≤ start + written.bits ∨ t.readOverflows addr kind = true := by
  unfold glimpse Interval.lane at h
  unfold readOverflows
  rw [hstate]
  simp only [Bool.and_eq_true, decide_eq_true_eq]
  split_ifs at h with hsame hlt
  · rw [hsame.1, hsame.2]
    exact Or.inl (Nat.le_refl _)
  · by_cases hsum : (t.locate addr).2 - start + kind.bits < 2 ^ 32
    · rw [wrap_of_lt hsum] at hlt
      exact Or.inl (by omega)
    · exact Or.inr ⟨hnear, Nat.not_lt.mp hsum⟩

theorem typed_of_read? {kind : ScalarKind} {answer : Bound} (h : t.read? addr kind = some answer) :
    ∃ written start value, t.state? addr = some (.typed written start value) := by
  unfold read? at h
  dsimp only at h
  split at h
  · cases h
  · cases h
  · exact ⟨_, _, _, ‹_›⟩

/-- **Reads are covered by the last write, unless the sum overflows.** A read of a union has an
answer exactly if the union holds a value that starts no later than what is read and whose bits
include those that are read, or else the bits from there to the end of the read are more than
thirty-two bits count. The answer is the value itself or the lane of it that is read. That value
was written by the last step, in the history that is being continued, that wrote or forgot the
union. -/
theorem read_iff_covered_unless_overflows (h : History) (addr : ValueKey) (kind : ScalarKind) (answer : Bound) :
    h.table.read? addr kind = some answer ↔
      ∃ written start value, h.table.state? addr = some (.typed written start value) ∧
        h.LastWrite (h.table.locate addr).1 written start value ∧ start ≤ (h.table.locate addr).2 ∧
        ((h.table.locate addr).2 + kind.bits ≤ start + written.bits ∨ h.table.readOverflows addr kind = true) ∧
        glimpse value written start (h.table.locate addr).2 kind = some answer := by
  constructor
  · intro hread
    obtain ⟨written, start, value, hstate⟩ := typed_of_read? hread
    rw [read?_of_typed hstate] at hread
    split_ifs at hread with hfar
    rw [not_or, Nat.not_lt, Nat.not_le] at hfar
    exact ⟨written, start, value, hstate, History.lastWrite_of_typed hstate, hfar.1,
      covered_of_glimpse hstate hfar.1 hfar.2 hread, hread⟩
  · rintro ⟨written, start, value, hstate, -, hle, hcovered, hanswer⟩
    have hnear : (h.table.locate addr).2 - start < 2 ^ 32 := by
      rcases hcovered with hcovered | hoverflows
      · have hbits : written.bits ≤ 64 := by cases written <;> decide
        omega
      · unfold readOverflows at hoverflows
        rw [hstate, Bool.and_eq_true, decide_eq_true_eq] at hoverflows
        exact hoverflows.1
    rw [read?_of_typed hstate, if_neg (not_or.mpr ⟨Nat.not_lt.mpr hle, Nat.not_le.mpr hnear⟩), hanswer]

/-- A word of eight bytes is written, and a byte is read that ends `2 ^ 32` bits behind its start. -/
def farByte : History :=
  [Step.view (.inst 0 1) (.inst 0 0), .write (.inst 0 1) (some .i64) (some ⟨-1.0, -1.0⟩),
    .field (.inst 0 2) (.inst 0 1) 4294967288].foldl .step .start

/-- The byte is answered, although it was never written. -/
theorem farByte_read : farByte.table.state? (.inst 0 2) = some (.typed .i64 0 ⟨-1.0, -1.0⟩) ∧
    farByte.table.locate (.inst 0 2) = (.inst 0 0, 4294967288) ∧
    0 + ScalarKind.i64.bits < 4294967288 + ScalarKind.i8.bits ∧
    farByte.table.readOverflows (.inst 0 2) .i8 = true ∧
    farByte.table.read? (.inst 0 2) .i8 = some ⟨-1.0, -1.0⟩ := by
  decide

end RangedIR.AliasTable
