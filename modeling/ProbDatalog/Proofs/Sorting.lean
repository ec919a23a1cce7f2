import ProbDatalog.Proofs.Orders
import ProbDatalog.Sorted
import Mathlib.Data.List.Perm.Basic

/-!
# Sorted sets are determined by their members

The operations on sorted sets keep them strictly ascending, and strictly ascending lists with the
same members are equal. So a set of proofs is the same however it was put together.

* `isSorted_insert`, `isSorted_union`, `isSorted_ofList`: the operations keep the order.
* `IsSorted.eq_of_mem_iff`: **sorted sets with the same members are equal.**
* `ProofSet.mem_insertAll`, `ProofSet.isSorted_insertAll`, `ProofSet.eq_of_mem_iff`: the same for
  sets of proofs.
* `ProofSet.ofList_eq_iff`: **sets are equal if the same proofs were put into them.**
-/

namespace ProbDatalog

namespace Sorted

variable {α : Type} [Ord α]

/-- Strictly ascending. -/
def IsSorted (l : List α) : Prop := l.Pairwise fun a b => compare a b = .lt

@[simp] theorem isSorted_nil : IsSorted ([] : List α) := .nil

@[simp] theorem isSorted_singleton (x : α) : IsSorted [x] := List.pairwise_singleton _ _

variable [Std.TransOrd α] [Std.LawfulEqOrd α] {s t : List α}

omit [Std.TransOrd α] [Std.LawfulEqOrd α] in
theorem IsSorted.filter (h : IsSorted s) (p : α → Bool) : IsSorted (s.filter p) :=
  List.Pairwise.filter p h

theorem isSorted_insert (h : IsSorted s) (x : α) : IsSorted (insert x s) := by
  induction s with
  | nil => exact isSorted_singleton x
  | cons y rest ih =>
    obtain ⟨hy, hrest⟩ := List.pairwise_cons.1 h
    unfold insert
    split
    next hlt =>
      refine List.pairwise_cons.2 ⟨fun z hz => ?_, h⟩
      rcases List.mem_cons.1 hz with rfl | hz
      · exact hlt
      · exact Std.TransCmp.lt_trans hlt (hy z hz)
    · exact h
    next hgt =>
      refine List.pairwise_cons.2 ⟨fun z hz => ?_, ih hrest⟩
      rcases mem_insert.1 hz with rfl | hz
      · exact Std.OrientedCmp.lt_of_gt hgt
      · exact hy z hz

theorem isSorted_union (h : IsSorted s) (t : List α) : IsSorted (union s t) := by
  unfold union
  induction t generalizing s with
  | nil => exact h
  | cons x rest ih => exact ih (isSorted_insert h x)

theorem isSorted_ofList (l : List α) : IsSorted (ofList l) := isSorted_union isSorted_nil l

omit [Std.LawfulEqOrd α] in
theorem IsSorted.nodup (h : IsSorted s) : s.Nodup :=
  h.imp fun {a b} hab heq => by
    rw [heq, Std.ReflOrd.compare_self] at hab
    cases hab

omit [Std.LawfulEqOrd α] in
/-- **Sorted sets with the same members are equal.** -/
theorem IsSorted.eq_of_mem_iff (hs : IsSorted s) (ht : IsSorted t) (h : ∀ x, x ∈ s ↔ x ∈ t) :
    s = t := by
  -- without duplicates the two are permutations of each other, and there is one ascending order
  refine List.Perm.eq_of_pairwise ?_ hs ht ?_
  · intro a b _ _ hab hba
    exact absurd hba (Std.OrientedCmp.not_lt_of_lt hab)
  · exact (List.perm_ext_iff_of_nodup hs.nodup ht.nodup).2 h

omit [Std.TransOrd α] in
/-- A new member makes the set longer by one. -/
theorem length_insert_of_not_mem {x : α} (h : x ∉ s) : (insert x s).length = s.length + 1 := by
  induction s with
  | nil => rfl
  | cons y rest ih =>
    rw [List.mem_cons, not_or] at h
    unfold insert
    split
    · rfl
    next heq => exact absurd (Std.LawfulEqOrd.eq_of_compare heq) h.1
    · simp [ih h.2]

end Sorted

namespace ProofSet

open Sorted

theorem mem_insertAll {s : ProofSet} {ps : List Proof} {π : Proof} :
    π ∈ (s.insertAll ps).toList ↔ π ∈ s.toList ∨ π ∈ ps := by
  unfold insertAll
  induction ps generalizing s with
  | nil => simp
  | cons p ps ih =>
    rw [List.foldl_cons, ih, List.mem_cons]
    simp only [insert, mem_insert]
    tauto

theorem isSorted_insertAll {s : ProofSet} (h : IsSorted s.toList) (ps : List Proof) :
    IsSorted (s.insertAll ps).toList := by
  unfold insertAll
  induction ps generalizing s with
  | nil => exact h
  | cons p ps ih => exact ih (isSorted_insert h p)

variable {s t : ProofSet} {ps qs : List Proof} {π : Proof}

theorem mem_ofList : π ∈ (ofList ps).toList ↔ π ∈ ps := by
  simp [ofList, mem_insertAll, empty]

theorem isSorted_ofList (ps : List Proof) : IsSorted (ofList ps).toList :=
  isSorted_insertAll isSorted_nil ps

/-- Ordered sets of proofs are determined by their members. -/
theorem eq_of_mem_iff (hs : IsSorted s.toList) (ht : IsSorted t.toList)
    (h : ∀ π, π ∈ s.toList ↔ π ∈ t.toList) : s = t :=
  congrArg ProofSet.mk (hs.eq_of_mem_iff ht h)

/-- **Ordered sets are equal if the same proofs were put into them.** -/
theorem ofList_eq_iff : ofList ps = ofList qs ↔ ∀ π, π ∈ ps ↔ π ∈ qs := by
  constructor
  · intro h π
    have hmem : π ∈ (ofList ps).toList ↔ π ∈ (ofList qs).toList := by rw [h]
    rwa [mem_ofList, mem_ofList] at hmem
  · intro h
    refine eq_of_mem_iff (isSorted_ofList ps) (isSorted_ofList qs) fun π => ?_
    rw [mem_ofList, mem_ofList, h]

/-- To put a proof into an ordered set changes it unless the proof is there. -/
theorem insert_eq_self_iff (hs : IsSorted s.toList) : s.insert π = s ↔ π ∈ s.toList := by
  constructor
  · intro h
    rw [← h]
    exact mem_insert.2 (.inl rfl)
  · intro h
    refine eq_of_mem_iff (isSorted_insert hs π) hs fun q => mem_insert.trans ?_
    exact or_iff_right_of_imp fun hq => hq ▸ h

end ProofSet

end ProbDatalog
