/-!
# Association lists in order of insertion

A finite map as a list of pairs. A new key goes to the end and an old key keeps its place, so the
order of the list is the order in which keys were first inserted.

* `get?_insert`: reading after writing.
* `keys_insert`: the keys after writing.
* `get?_eq_none_iff`: a key without a value is absent from the list of keys.
-/

namespace ProbDatalog

/-- A finite map that lists its keys in the order of their first insertion. -/
structure Assoc (κ : Type) (ν : Type) where
  /-- Keys with their values; the constructors below never repeat a key. -/
  entries : List (κ × ν)
  deriving DecidableEq, Hashable

namespace Assoc

variable {κ ν : Type}

/-- The map without keys. -/
def empty : Assoc κ ν := ⟨[]⟩

instance : Inhabited (Assoc κ ν) := ⟨empty⟩

/-- The keys, oldest first. -/
def keys (m : Assoc κ ν) : List κ := m.entries.map Prod.fst

/-- The values, in the order of their keys. -/
def values (m : Assoc κ ν) : List ν := m.entries.map Prod.snd

/-- The number of keys. -/
def size (m : Assoc κ ν) : Nat := m.entries.length

variable [DecidableEq κ]

/-- The value at a key in a list of entries. -/
def find? (k : κ) : List (κ × ν) → Option ν
  | [] => none
  | (k', v) :: rest => if k' = k then some v else find? k rest

/-- The value at a key. -/
def get? (m : Assoc κ ν) (k : κ) : Option ν := find? k m.entries

/-- Whether the key has a value. -/
def contains (m : Assoc κ ν) (k : κ) : Bool := (m.get? k).isSome

/-- The list of entries with the value at `k` replaced by `f` of the old one. -/
def alterEntries (k : κ) (f : Option ν → ν) : List (κ × ν) → List (κ × ν)
  | [] => [(k, f none)]
  | (k', v) :: rest =>
    if k' = k then (k', f (some v)) :: rest else (k', v) :: alterEntries k f rest

/-- Replace the value at `k` by `f` of the old one; a new key goes to the end. -/
def alter (m : Assoc κ ν) (k : κ) (f : Option ν → ν) : Assoc κ ν := ⟨alterEntries k f m.entries⟩

/-- Write `v` at `k`; an old key keeps its place. -/
def insert (m : Assoc κ ν) (k : κ) (v : ν) : Assoc κ ν := m.alter k fun _ => v

/-- The position of a key among the keys. -/
def indexOf? (m : Assoc κ ν) (k : κ) : Option Nat := m.keys.findIdx? (· = k)

/-- Write the listed entries one after the other. -/
def extend (m : Assoc κ ν) (entries : List (κ × ν)) : Assoc κ ν :=
  entries.foldl (fun m e => m.insert e.1 e.2) m

/-- The map with the listed entries written one after the other. -/
def ofList (entries : List (κ × ν)) : Assoc κ ν := empty.extend entries

theorem find?_alterEntries (k k' : κ) (f : Option ν → ν) (l : List (κ × ν)) :
    find? k' (alterEntries k f l) = if k = k' then some (f (find? k l)) else find? k' l := by
  induction l with
  | nil => simp [alterEntries, find?]
  | cons e rest ih => grind [alterEntries, find?]

theorem get?_alter (m : Assoc κ ν) (k k' : κ) (f : Option ν → ν) :
    (m.alter k f).get? k' = if k = k' then some (f (m.get? k)) else m.get? k' :=
  find?_alterEntries k k' f m.entries

/-- **Reading after writing.** -/
theorem get?_insert (m : Assoc κ ν) (k k' : κ) (v : ν) :
    (m.insert k v).get? k' = if k = k' then some v else m.get? k' :=
  get?_alter m k k' _

theorem length_alterEntries (k : κ) (f : Option ν → ν) (l : List (κ × ν)) :
    (alterEntries k f l).length = if (find? k l).isSome then l.length else l.length + 1 := by
  induction l with
  | nil => simp [alterEntries, find?]
  | cons e rest ih => grind [alterEntries, find?]

/-- A new key adds one to the size. -/
theorem size_insert_of_get?_eq_none {m : Assoc κ ν} {k : κ} (h : m.get? k = none) (v : ν) :
    (m.insert k v).size = m.size + 1 := by
  have h' : find? k m.entries = none := h
  show (alterEntries k _ m.entries).length = m.entries.length + 1
  simp [length_alterEntries, h']

/-- A new key goes to the end of the list of keys, an old one keeps its place. -/
theorem keys_alter (m : Assoc κ ν) (k : κ) (f : Option ν → ν) :
    (m.alter k f).keys = if k ∈ m.keys then m.keys else m.keys ++ [k] := by
  unfold keys alter
  induction m.entries with
  | nil => simp [alterEntries]
  | cons e rest ih => grind [alterEntries]

theorem keys_insert (m : Assoc κ ν) (k : κ) (v : ν) :
    (m.insert k v).keys = if k ∈ m.keys then m.keys else m.keys ++ [k] :=
  keys_alter m k _

theorem alterEntries_of_find?_eq_none {k : κ} (f : Option ν → ν) {l : List (κ × ν)}
    (h : find? k l = none) : alterEntries k f l = l ++ [(k, f none)] := by
  induction l with
  | nil => rfl
  | cons e rest ih => grind [alterEntries, find?]

/-- A new key that is written last among the entries is written last. -/
theorem extend_insert {m pending : Assoc κ ν} {k : κ} {v : ν} (h : pending.get? k = none) :
    m.extend (pending.insert k v).entries = (m.extend pending.entries).insert k v := by
  have hentries : (pending.insert k v).entries = pending.entries ++ [(k, v)] :=
    alterEntries_of_find?_eq_none _ h
  rw [hentries, extend, List.foldl_append]
  rfl

@[simp] theorem get?_empty (k : κ) : (empty : Assoc κ ν).get? k = none := rfl

theorem get?_eq_none_iff (m : Assoc κ ν) (k : κ) : m.get? k = none ↔ k ∉ m.keys := by
  unfold get? keys
  induction m.entries with
  | nil => simp [find?]
  | cons e rest ih => grind [find?]

/-- The values are what the keys have, if no key is repeated. -/
theorem values_eq_map {m : Assoc κ ν} (h : m.keys.Nodup) (d : ν) :
    m.values = m.keys.map fun k => (m.get? k).getD d := by
  obtain ⟨entries⟩ := m
  induction entries with
  | nil => rfl
  | cons e rest ih =>
    simp only [values, keys, get?, List.map_cons, List.nodup_cons] at h ih ⊢
    rw [ih h.2]
    congr 1
    · simp [find?]
    · refine List.map_congr_left fun k hk => ?_
      have hne : e.1 ≠ k := fun he => h.1 (he ▸ hk)
      rw [find?, if_neg hne]

end Assoc

end ProbDatalog
