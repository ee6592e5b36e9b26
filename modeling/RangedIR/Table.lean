/-
RangedIR.Table — finite tables.

A table is a list of entries. Entering a key that is there replaces its value
in place, a new key goes to the end, so the keys of a table built by these
operations are distinct and stand in the order of their first entry.
-/

namespace RangedIR

/-- A finite table from keys to values. -/
structure Table (κ ν : Type) where
  entries : List (κ × ν)
  deriving Repr, DecidableEq

namespace Table

variable {κ ν μ : Type}

/-- The table without entries. -/
def empty : Table κ ν := ⟨[]⟩

instance : Inhabited (Table κ ν) := ⟨empty⟩

/-- The number of entries. -/
def size (t : Table κ ν) : Nat := t.entries.length

def isEmpty (t : Table κ ν) : Bool := t.entries.isEmpty

/-- The keys in the order of the entries. -/
def keys (t : Table κ ν) : List κ := t.entries.map Prod.fst

/-- The entries that pass a test. -/
def filter (p : κ → ν → Bool) (t : Table κ ν) : Table κ ν := ⟨t.entries.filter fun (k, v) => p k v⟩

/-- Change every value. -/
def mapValues (f : κ → ν → μ) (t : Table κ ν) : Table κ μ :=
  ⟨t.entries.map fun (k, v) => (k, f k v)⟩

variable [DecidableEq κ]

/-- The value at a key among entries. -/
def findIn (key : κ) : List (κ × ν) → Option ν
  | [] => none
  | (k, v) :: rest => if k = key then some v else findIn key rest

/-- The value at a key. -/
def find? (t : Table κ ν) (key : κ) : Option ν := findIn key t.entries

def contains (t : Table κ ν) (key : κ) : Bool := (t.find? key).isSome

/-- Entries with a key set to a value. -/
def insertIn (key : κ) (value : ν) : List (κ × ν) → List (κ × ν)
  | [] => [(key, value)]
  | (k, v) :: rest => if k = key then (key, value) :: rest else (k, v) :: insertIn key value rest

/-- Set a key to a value. -/
def insert (t : Table κ ν) (key : κ) (value : ν) : Table κ ν := ⟨insertIn key value t.entries⟩

/-- Remove a key. -/
def erase (t : Table κ ν) (key : κ) : Table κ ν := ⟨t.entries.filter fun (k, _) => decide (k ≠ key)⟩

/-- Set a key to a value, or remove it if there is none. -/
def set (t : Table κ ν) (key : κ) : Option ν → Table κ ν
  | some v => t.insert key v
  | none => t.erase key

/-- The value at a key, or one that stands for none. -/
def getD (t : Table κ ν) (key : κ) (fallback : ν) : ν := (t.find? key).getD fallback

/-- Enter all entries of a list, one after the other. -/
def insertAll (t : Table κ ν) (entries : List (κ × ν)) : Table κ ν :=
  entries.foldl (fun t (k, v) => t.insert k v) t

/-- The table of a list of entries; a later entry replaces an earlier one. -/
def ofList (entries : List (κ × ν)) : Table κ ν := empty.insertAll entries

end Table

end RangedIR
