import ProbDatalog.Assoc
import Mathlib.Data.List.Nodup

/-!
# Maps from lists

What a map has that was made by writing entries one after the other.

* `nodup_keys_ofList`, `mem_keys_ofList`: each key that was written is there once.
* `get?_ofList`: the value at a key that was always written with the same one.
* `mem_entries_iff`: where no key is repeated, the entries are what can be read.
-/

namespace ProbDatalog

namespace Assoc

variable {κ ν : Type} [DecidableEq κ] {entries : List (κ × ν)}

theorem mem_keys_insert {m : Assoc κ ν} {k k' : κ} {v : ν} :
    k' ∈ (m.insert k v).keys ↔ k' ∈ m.keys ∨ k' = k := by
  rw [keys_insert]
  split <;> simp_all

theorem nodup_keys_insert {m : Assoc κ ν} (h : m.keys.Nodup) (k : κ) (v : ν) :
    (m.insert k v).keys.Nodup := by
  rw [keys_insert]
  split
  · exact h
  next hk => exact List.nodup_append'.2 ⟨h, List.nodup_singleton k, by simpa using hk⟩

/-- A map from a list has no key twice. -/
theorem nodup_keys_ofList (entries : List (κ × ν)) : (ofList entries).keys.Nodup :=
  List.foldlRecOn (motive := fun m : Assoc κ ν => m.keys.Nodup) entries _ List.nodup_nil
    fun _ h e _ => nodup_keys_insert h e.1 e.2

/-- The keys of a map from a list are those of its entries. -/
theorem mem_keys_ofList {k : κ} : k ∈ (ofList entries).keys ↔ ∃ e ∈ entries, e.1 = k := by
  have key : ∀ m : Assoc κ ν, k ∈ (entries.foldl (fun m e => m.insert e.1 e.2) m).keys ↔
      k ∈ m.keys ∨ ∃ e ∈ entries, e.1 = k := by
    induction entries with
    | nil => simp
    | cons e rest ih =>
      intro m
      rw [List.foldl_cons, ih, mem_keys_insert]
      simp [or_assoc, eq_comm]
  exact (key empty).trans (by simp [keys, empty])

/-- Where entries with one key have one value, this is the value at the key. -/
theorem get?_ofList {k : κ} {v : ν} (hk : ∃ e ∈ entries, e.1 = k)
    (hv : ∀ e ∈ entries, e.1 = k → e.2 = v) : (ofList entries).get? k = some v := by
  -- a map that has no value at the key before has the right one after them, if any is written
  have key : ∀ m : Assoc κ ν, (m.get? k = some v ∨ ∃ e ∈ entries, e.1 = k) →
      (entries.foldl (fun m e => m.insert e.1 e.2) m).get? k = some v := by
    clear hk
    induction entries with
    | nil =>
      rintro m (h | ⟨e, he, -⟩)
      · exact h
      · cases he
    | cons e rest ih =>
      intro m h
      rw [List.foldl_cons]
      refine ih (fun e he => hv e (by simp [he])) _ ?_
      rw [get?_insert]
      by_cases hek : e.1 = k
      · exact .inl (by rw [if_pos hek, hv e (by simp) hek])
      · rw [if_neg hek]
        refine h.imp_right ?_
        rintro ⟨e', he', hk'⟩
        rcases List.mem_cons.1 he' with rfl | he'
        · exact absurd hk' hek
        · exact ⟨e', he', hk'⟩
  exact key empty (.inr hk)

/-- Where no key is repeated, the entries are what can be read. -/
theorem mem_entries_iff {m : Assoc κ ν} (h : m.keys.Nodup) {k : κ} {v : ν} :
    (k, v) ∈ m.entries ↔ m.get? k = some v := by
  obtain ⟨l⟩ := m
  unfold get?
  induction l with
  | nil => simp [find?]
  | cons e rest ih =>
    obtain ⟨k', v'⟩ := e
    obtain ⟨hk', hrest⟩ := List.nodup_cons.1 h
    rw [List.mem_cons, ih hrest, find?]
    by_cases hk : k' = k
    · subst hk
      have hnone : find? k' rest = none := (get?_eq_none_iff ⟨rest⟩ k').2 hk'
      simp [hnone, eq_comm]
    · simp [hk, Ne.symm hk]

end Assoc

end ProbDatalog
