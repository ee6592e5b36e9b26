/-
RangedIR.Proofs.Table — what the operations of tables do to their entries.

Three views of a table: the value found under a key, the set of its entries, and the list
of its keys. The first answers what an operation does at one key; the second carries facts
that hold of every entry; the third tells a table apart from one with other names.
-/
import Mathlib
import RangedIR.Table

namespace RangedIR.Table

variable {κ ν μ : Type} [DecidableEq κ]

/-! ## 1. The value under a key -/

@[simp] theorem find?_empty (key : κ) : (empty : Table κ ν).find? key = none := rfl

theorem findIn_insertIn (key other : κ) (value : ν) (l : List (κ × ν)) :
    findIn other (insertIn key value l) = if key = other then some value else findIn other l := by
  induction l with
  | nil => rfl
  | cons e rest ih =>
    obtain ⟨k, v⟩ := e
    unfold insertIn
    by_cases hk : k = key
    · subst hk
      rw [if_pos rfl]
      by_cases ho : k = other <;> simp [findIn, ho]
    · rw [if_neg hk, findIn, ih, findIn]
      by_cases ho : k = other
      · subst ho
        rw [if_pos rfl, if_neg (Ne.symm hk), if_pos rfl]
      · rw [if_neg ho, if_neg ho]

@[simp] theorem find?_insert (t : Table κ ν) (key other : κ) (value : ν) :
    (t.insert key value).find? other = if key = other then some value else t.find? other :=
  findIn_insertIn key other value t.entries

theorem findIn_filter (p : κ → Bool) (key : κ) (l : List (κ × ν)) :
    findIn key (l.filter fun e => p e.1) = if p key then findIn key l else none := by
  induction l with
  | nil => simp [findIn]
  | cons e rest ih =>
    obtain ⟨k, v⟩ := e
    by_cases hp : p k = true
    · rw [List.filter_cons_of_pos (by simpa using hp), findIn, ih, findIn]
      by_cases hk : k = key
      · subst hk
        simp [hp]
      · simp [hk]
    · rw [List.filter_cons_of_neg (by simpa using hp), ih, findIn]
      by_cases hk : k = key
      · subst hk
        simp [hp]
      · simp [hk]

/-- A test of the key alone keeps or removes everything under it. -/
theorem find?_filter (t : Table κ ν) (p : κ → Bool) (key : κ) :
    (t.filter fun k _ => p k).find? key = if p key then t.find? key else none :=
  findIn_filter p key t.entries

@[simp] theorem find?_erase (t : Table κ ν) (key other : κ) :
    (t.erase key).find? other = if key = other then none else t.find? other := by
  have h := findIn_filter (fun k => decide (k ≠ key)) other t.entries
  by_cases ho : key = other
  · subst ho
    simpa [find?, erase] using h
  · simpa [find?, erase, ho, Ne.symm ho] using h

@[simp] theorem find?_set (t : Table κ ν) (key other : κ) (value : Option ν) :
    (t.set key value).find? other = if key = other then value else t.find? other := by
  cases value with
  | none => exact find?_erase t key other
  | some v => exact find?_insert t key other v

theorem find?_mapValues (t : Table κ ν) (f : κ → ν → μ) (key : κ) :
    (t.mapValues f).find? key = (t.find? key).map (f key) := by
  unfold mapValues find?
  induction t.entries with
  | nil => rfl
  | cons e rest ih =>
    obtain ⟨k, v⟩ := e
    rw [List.map_cons, findIn, findIn, ih]
    by_cases hk : k = key
    · subst hk
      simp
    · simp [hk]

theorem insert_mapValues (t : Table κ ν) (f : ν → μ) (key : κ) (value : ν) :
    (t.mapValues fun _ v => f v).insert key (f value) = (t.insert key value).mapValues fun _ v => f v := by
  have h (l : List (κ × ν)) : insertIn key (f value) (l.map fun e => (e.1, f e.2)) =
      (insertIn key value l).map fun e => (e.1, f e.2) := by
    induction l with
    | nil => rfl
    | cons e rest ih =>
      obtain ⟨k, v⟩ := e
      by_cases hk : k = key <;> simp [insertIn, hk, ih]
  exact congrArg mk (h t.entries)

@[simp] theorem contains_eq (t : Table κ ν) (key : κ) : t.contains key = (t.find? key).isSome := rfl

theorem insertAll_cons (t : Table κ ν) (e : κ × ν) (l : List (κ × ν)) :
    t.insertAll (e :: l) = (t.insert e.1 e.2).insertAll l := rfl

/-- Entering values that a function gives to some keys. -/
theorem find?_insertAll_filterMap (g : κ → Option ν) (keys : List κ) :
    ∀ (t : Table κ ν) (key : κ),
      (t.insertAll (keys.filterMap fun k => (g k).map fun v => (k, v))).find? key =
        if key ∈ keys ∧ (g key).isSome then g key else t.find? key := by
  induction keys with
  | nil =>
    intro t key
    simp [insertAll]
  | cons k rest ih =>
    intro t key
    cases hk : g k with
    | none =>
      rw [List.filterMap_cons_none (by rw [hk]; rfl), ih]
      by_cases hkey : key = k
      · subst hkey
        simp [hk]
      · simp [hkey]
    | some v =>
      rw [List.filterMap_cons_some (by rw [hk]; rfl), insertAll_cons, ih, find?_insert]
      by_cases hkey : key = k
      · subst hkey
        simp [hk]
      · simp [hkey, Ne.symm hkey]

/-- Entries of different keys are all found. -/
theorem find?_insertAll {l : List (κ × ν)} (h : (l.map Prod.fst).Nodup) {t : Table κ ν} {key : κ} {v : ν} :
    (t.insertAll l).find? key = some v ↔ (key, v) ∈ l ∨ (key ∉ l.map Prod.fst ∧ t.find? key = some v) := by
  induction l generalizing t with
  | nil => simp [insertAll]
  | cons e l ih =>
    obtain ⟨k, w⟩ := e
    obtain ⟨hnot, hnodup⟩ := List.nodup_cons.1 h
    rw [insertAll_cons, ih hnodup, find?_insert]
    by_cases hkey : k = key
    · subst hkey
      have hmem : (k, v) ∉ l := fun hmem => hnot (List.mem_map.2 ⟨_, hmem, rfl⟩)
      simp [hmem, hnot, eq_comm]
    · simp [hkey, Ne.symm hkey]

/-! ## 2. All entries -/

/-- Every entry has a property. -/
def All (P : κ → ν → Prop) (t : Table κ ν) : Prop := ∀ k v, (k, v) ∈ t.entries → P k v

section All

variable {P : κ → ν → Prop} {t : Table κ ν}

omit [DecidableEq κ] in
theorem all_empty : (empty : Table κ ν).All P := by
  intro k v h
  cases h

omit [DecidableEq κ] in
theorem All.imp {Q : κ → ν → Prop} (h : t.All P) (hpq : ∀ k v, P k v → Q k v) : t.All Q :=
  fun k v hkv => hpq k v (h k v hkv)

variable {key : κ} {v : ν} {l : List (κ × ν)}

theorem mem_of_findIn (h : findIn key l = some v) : (key, v) ∈ l := by
  induction l with
  | nil => cases h
  | cons e rest ih =>
    obtain ⟨k, w⟩ := e
    unfold findIn at h
    split_ifs at h with hk
    · cases h
      subst hk
      exact List.mem_cons_self
    · exact List.mem_cons_of_mem _ (ih h)

/-- Where keys are distinct, entries are found. -/
theorem find?_eq_some_iff (h : t.keys.Nodup) : t.find? key = some v ↔ (key, v) ∈ t.entries := by
  refine ⟨mem_of_findIn, fun hmem => ?_⟩
  obtain ⟨entries⟩ := t
  change (entries.map Prod.fst).Nodup at h
  change findIn key entries = some v
  induction entries with
  | nil => cases hmem
  | cons e rest ih =>
    obtain ⟨hnot, hrest⟩ := List.nodup_cons.1 h
    rcases List.mem_cons.1 hmem with rfl | hlater
    · simp [findIn]
    · have hne : e.1 ≠ key := by
        rintro rfl
        exact hnot (List.mem_map.2 ⟨_, hlater, rfl⟩)
      rw [findIn, if_neg hne]
      exact ih hlater hrest

theorem All.find? (h : t.All P) (hv : t.find? key = some v) : P key v :=
  h key v (mem_of_findIn hv)

theorem mem_insertIn {key k : κ} {value v : ν} (h : (k, v) ∈ insertIn key value l) :
    (k = key ∧ v = value) ∨ (k, v) ∈ l := by
  induction l with
  | nil => simpa [insertIn] using h
  | cons e rest ih =>
    obtain ⟨k', v'⟩ := e
    unfold insertIn at h
    split_ifs at h with hk
    · rcases List.mem_cons.mp h with h | h
      · simp_all
      · exact Or.inr (List.mem_cons_of_mem _ h)
    · rcases List.mem_cons.mp h with h | h
      · exact Or.inr (h ▸ List.mem_cons_self)
      · exact (ih h).imp_right (List.mem_cons_of_mem _)

theorem All.insert (h : t.All P) {value : ν} (hp : P key value) : (t.insert key value).All P := by
  intro k v hkv
  rcases mem_insertIn hkv with ⟨rfl, rfl⟩ | hold
  · exact hp
  · exact h k v hold

end All

/-! ## 3. Keys -/

omit [DecidableEq κ] in
theorem keys_mapValues (t : Table κ ν) (f : κ → ν → μ) : (t.mapValues f).keys = t.keys := by
  simp [keys, mapValues, Function.comp_def]

variable {t : Table κ ν} {key : κ}

theorem mem_keys : key ∈ t.keys ↔ t.contains key = true := by
  obtain ⟨entries⟩ := t
  change key ∈ entries.map Prod.fst ↔ (findIn key entries).isSome = true
  induction entries with
  | nil => simp [findIn]
  | cons e rest ih =>
    obtain ⟨k, v⟩ := e
    by_cases hk : k = key
    · simp [findIn, hk]
    · simp [findIn, hk, Ne.symm hk, ← ih]

/-- Entering a key that is there changes no key. -/
theorem keys_insert (h : t.contains key = true) (value : ν) :
    (t.insert key value).keys = t.keys := by
  obtain ⟨entries⟩ := t
  change (insertIn key value entries).map Prod.fst = entries.map Prod.fst
  rw [contains_eq] at h
  change (findIn key entries).isSome = true at h
  induction entries with
  | nil => cases h
  | cons e rest ih =>
    obtain ⟨k, v⟩ := e
    unfold insertIn
    unfold findIn at h
    split_ifs at h ⊢ with hk
    · rw [hk]
      rfl
    · exact congrArg (k :: ·) (ih h)

/-- A key that is not there is entered at the end. -/
theorem insert_of_contains (h : t.contains key = false) (value : ν) :
    t.insert key value = ⟨t.entries ++ [(key, value)]⟩ := by
  have hkey : key ∉ t.keys := by simp only [mem_keys, h, Bool.false_eq_true, not_false_eq_true]
  obtain ⟨entries⟩ := t
  refine congrArg mk (?_ : insertIn key value entries = entries ++ [(key, value)])
  clear h
  induction entries with
  | nil => rfl
  | cons e rest ih =>
    obtain ⟨hk, hrest⟩ := not_or.1 (mt List.mem_cons.2 hkey)
    rw [insertIn, if_neg (Ne.symm hk), ih hrest, List.cons_append]

/-- A key that is entered at the end is there once if it was not there. -/
theorem nodup_keys_append (h : t.keys.Nodup) (key : κ) (value : ν) :
    (mk (t.entries ++ [(key, value)])).keys.Nodup ↔ t.contains key = false := by
  have hkeys : (mk (t.entries ++ [(key, value)])).keys = t.keys ++ [key] := List.map_append
  rw [hkeys, ← List.concat_eq_append, List.nodup_concat, mem_keys, Bool.not_eq_true]
  exact and_iff_left h

end RangedIR.Table
