import Mathlib.Algebra.BigOperators.Group.Finset.Powerset
import Mathlib.Algebra.BigOperators.Ring.Finset
import Mathlib.Algebra.Order.BigOperators.Ring.Finset
import Mathlib.Algebra.Order.Ring.Rat
import Mathlib.Tactic.Linarith
import Mathlib.Tactic.Ring

/-!
# The mass of independent choices

Finitely many things are chosen independently, each with a probability of its own. The mass of a
property is the sum over all choices that have it, each with the product of the probabilities of
what was chosen and of what was not.

* `mass_insert`: one thing more splits the mass in two.
* `mass_and`: **properties of different things are independent.**
* `mass_of_subset`: things that a property does not depend on do not matter.
* `mass_image`: things may be renamed.
* `mass_nonneg`, `mass_le_one`: masses are probabilities.
* `mass_eq_zero_iff`, `mass_eq_one_iff`: what has no mass never happens, and what has all of it
  always.
-/

namespace ProbDatalog

open Finset

open Classical in
/-- The sum over the subsets that have a property, each with the product of the probabilities of
what it has and of what it leaves out. -/
noncomputable def mass {ι : Type} [DecidableEq ι] (p : ι → ℚ) (V : Finset ι)
    (F : Finset ι → Prop) : ℚ :=
  ∑ T ∈ V.powerset with F T, (∏ i ∈ T, p i) * ∏ i ∈ V \ T, (1 - p i)

variable {ι κ : Type} [DecidableEq ι] {p q : ι → ℚ} {V W : Finset ι} {F G : Finset ι → Prop} {i : ι}

theorem mass_congr (h : ∀ T ⊆ V, F T ↔ G T) : mass p V F = mass p V G := by
  classical
  unfold mass
  congr 1
  exact filter_congr fun T hT => h T (mem_powerset.1 hT)

theorem mass_congr_weight (h : ∀ i ∈ V, p i = q i) : mass p V F = mass q V F := by
  classical
  refine sum_congr rfl fun T hT => ?_
  have hT' : T ⊆ V := mem_powerset.1 (mem_filter.1 hT).1
  congr 1
  · exact prod_congr rfl fun i hi => h i (hT' hi)
  · exact prod_congr rfl fun i hi => by rw [h i (sdiff_subset hi)]

theorem mass_empty (p : ι → ℚ) (F : Finset ι → Prop) :
    (F ∅ → mass p ∅ F = 1) ∧ (¬F ∅ → mass p ∅ F = 0) := by
  constructor
  · intro h
    simp [mass, h, filter_singleton]
  · intro h
    simp [mass, h, filter_singleton]

theorem mass_false (p : ι → ℚ) (V : Finset ι) : mass p V (fun _ => False) = 0 := by
  simp [mass]

/-- One thing more is chosen or not. -/
theorem mass_insert (h : i ∉ V) : mass p (insert i V) F =
    p i * mass p V (fun T => F (insert i T)) + (1 - p i) * mass p V F := by
  unfold mass
  simp only [sum_filter]
  -- the sets without the new thing and those with it are summed apart
  rw [sum_powerset_insert h, add_comm, mul_sum, mul_sum]
  congr 1
  · refine sum_congr rfl fun T hT => ?_
    have hi : i ∉ T := fun hi => h (mem_powerset.1 hT hi)
    have hsdiff : insert i V \ insert i T = V \ T := by
      ext j
      simp only [mem_sdiff, mem_insert, not_or]
      constructor
      · rintro ⟨rfl | hj, hne, hT⟩
        · exact absurd rfl hne
        · exact ⟨hj, hT⟩
      · rintro ⟨hj, hT⟩
        exact ⟨.inr hj, fun heq => h (heq ▸ hj), hT⟩
    rw [prod_insert hi, hsdiff]
    split <;> ring
  · refine sum_congr rfl fun T hT => ?_
    have hi : i ∉ T := fun hi => h (mem_powerset.1 hT hi)
    rw [insert_sdiff_of_notMem _ hi, prod_insert (by simp [h])]
    split <;> ring

theorem mass_true (p : ι → ℚ) (V : Finset ι) : mass p V (fun _ => True) = 1 := by
  induction V using Finset.induction_on with
  | empty => exact (mass_empty p _).1 trivial
  | insert i V hi ih =>
    rw [mass_insert hi, ih]
    ring

theorem mass_not (p : ι → ℚ) (V : Finset ι) (F : Finset ι → Prop) :
    mass p V (fun T => ¬F T) = 1 - mass p V F := by
  rw [← mass_true p V]
  unfold mass
  rw [eq_sub_iff_add_eq, add_comm, sum_filter_add_sum_filter_not]
  simp

theorem mass_nonneg (h : ∀ i ∈ V, 0 ≤ p i ∧ p i ≤ 1) : 0 ≤ mass p V F := by
  classical
  refine sum_nonneg fun T hT => ?_
  have hT' : T ⊆ V := mem_powerset.1 (mem_filter.1 hT).1
  refine mul_nonneg (prod_nonneg fun i hi => (h i (hT' hi)).1) (prod_nonneg fun i hi => ?_)
  exact sub_nonneg.2 (h i (sdiff_subset hi)).2

theorem mass_le_one (h : ∀ i ∈ V, 0 ≤ p i ∧ p i ≤ 1) : mass p V F ≤ 1 := by
  have := mass_nonneg (F := fun T => ¬F T) h
  rw [mass_not] at this
  linarith

/-- Where nothing is certain to be chosen or not to be chosen, every choice has some mass. -/
theorem mass_eq_zero_iff (h : ∀ i ∈ V, 0 < p i ∧ p i < 1) : mass p V F = 0 ↔ ∀ T ⊆ V, ¬F T := by
  classical
  have hpos : ∀ T ⊆ V, 0 < (∏ i ∈ T, p i) * ∏ i ∈ V \ T, (1 - p i) := fun T hT =>
    mul_pos (prod_pos fun i hi => (h i (hT hi)).1)
      (prod_pos fun i hi => sub_pos.2 (h i (sdiff_subset hi)).2)
  unfold mass
  rw [sum_eq_zero_iff_of_nonneg fun T hT => (hpos T (mem_powerset.1 (mem_filter.1 hT).1)).le]
  simp only [mem_filter, mem_powerset]
  constructor
  · exact fun hzero T hT hF => (hpos T hT).ne' (hzero T ⟨hT, hF⟩)
  · exact fun hno T hT => absurd hT.2 (hno T hT.1)

theorem mass_eq_one_iff (h : ∀ i ∈ V, 0 < p i ∧ p i < 1) : mass p V F = 1 ↔ ∀ T ⊆ V, F T := by
  have hnot := mass_eq_zero_iff (F := fun T => ¬F T) h
  rw [mass_not, sub_eq_zero] at hnot
  rw [eq_comm, hnot]
  simp only [not_not]

/-- **Properties of different things are independent.** -/
theorem mass_and (h : Disjoint V W) :
    mass p (V ∪ W) (fun T => F (T ∩ V) ∧ G (T ∩ W)) = mass p V F * mass p W G := by
  -- by induction on the first set, splitting both sides on one thing of it
  induction V using Finset.induction_on generalizing F with
  | empty =>
    have hT : ∀ T ⊆ W, (F (T ∩ ∅) ∧ G (T ∩ W) ↔ F ∅ ∧ G T) := fun T hT => by
      rw [inter_empty, inter_eq_left.2 hT]
    rw [empty_union, mass_congr hT]
    by_cases hF : F ∅
    · simp [hF, (mass_empty p F).1 hF]
    · simp [hF, (mass_empty p F).2 hF, mass_false]
  | insert i V hi ih =>
    rw [disjoint_insert_left] at h
    have hiVW : i ∉ V ∪ W := by simp [hi, h.1]
    rw [insert_union, mass_insert hiVW, mass_insert hi, add_mul, mul_assoc, mul_assoc,
      ← ih h.2, ← ih h.2]
    congr 2
    · refine mass_congr fun T hT => ?_
      have hiT : i ∉ T := fun hiT => hiVW (hT hiT)
      rw [← insert_inter_distrib, insert_inter_of_notMem h.1]
    · refine mass_congr fun T hT => ?_
      have hiT : i ∉ T := fun hiT => hiVW (hT hiT)
      rw [inter_insert_of_notMem hiT]

/-- Things that a property does not depend on do not matter. -/
theorem mass_of_subset (hVW : V ⊆ W) (hF : ∀ T ⊆ W, F T ↔ F (T ∩ V)) : mass p W F = mass p V F := by
  have h := mass_and (p := p) (F := F) (G := fun _ => True) (disjoint_sdiff (s := V) (t := W))
  rw [mass_true, mul_one, union_sdiff_of_subset hVW] at h
  rw [← h]
  exact mass_congr fun T hT => by rw [and_true, hF T hT]

/-- Things may be renamed, as long as they stay apart. -/
theorem mass_image [DecidableEq κ] {e : ι → κ} {r : κ → ℚ} {H : Finset κ → Prop}
    (he : Set.InjOn e V) :
    mass r (V.image e) H = mass (fun i => r (e i)) V fun T => H (T.image e) := by
  -- both sides are split on one thing more, which no other thing is renamed to
  induction V using Finset.induction_on generalizing H with
  | empty =>
    rw [image_empty]
    by_cases h : H ∅
    · rw [(mass_empty r H).1 h, (mass_empty _ _).1 (by simpa using h)]
    · rw [(mass_empty r H).2 h, (mass_empty _ _).2 (by simpa using h)]
  | insert i V hi ih =>
    have hinj : Set.InjOn e V := he.mono (by simp)
    have hne : e i ∉ V.image e := by
      rw [mem_image]
      rintro ⟨j, hj, heq⟩
      obtain rfl := he (by simp [hj]) (by simp) heq
      exact hi hj
    rw [image_insert, mass_insert hne, mass_insert hi, ih hinj, ih hinj]
    simp only [image_insert]

end ProbDatalog
