import ProbDatalog.Proofs.Measures
import ProbDatalog.Proofs.Probabilities

/-!
# Evaluating formulas

A formula is evaluated by splitting it on variables until no variable is left that occurs twice,
and then by multiplying. Which variable a formula is split on, and whether splitting goes on where
it could stop, is up to the evaluation. Every evaluation of a formula ends at the same number, which
is the mass of the assignments under which it holds. Cubes may be redundant and may contradict
themselves; such cubes are split like others.

* `Evaluation.eq_exactMass`: **all evaluations agree.**
* `evaluation_plainMeasure`: the recursion is one of them.
* `measure_exact`: what is computed is the mass, and the nearest probability to it is itself.
-/

namespace ProbDatalog.Formula

open Sorted

variable {f : Formula} {weights : Array ℚ} {V : Finset Nat} {q : ℚ}

/-! ## Evaluations -/

/-- The weight of a variable, as it is read for the computation. -/
def weightAt (weights : Array ℚ) (i : Nat) : ℚ := weights.getD i Weight.one

/-- All variables of the formula have weights, and these are probabilities. -/
def Covers (weights : Array ℚ) (f : Formula) : Prop :=
  ∀ i ∈ f.occurrences, ∃ w, weights[i]? = some w ∧ 0 ≤ w ∧ w ≤ 1

/-- The ways to evaluate a formula, with what they come to. A formula may be split on any variable
that occurs, and cubes may be multiplied when no variable occurs twice. Only weights that exist are
read. -/
inductive Evaluation (weights : Array ℚ) : Formula → ℚ → Prop
  | falsity {f : Formula} (h : f.isFalse = true) : Evaluation weights f 0
  | truth {f : Formula} (h : f.isTrue = true) : Evaluation weights f 1
  | independent {f : Formula} (h : f.occurrences.Nodup)
      (hread : ∀ i ∈ f.occurrences, i < weights.size) :
      Evaluation weights f (independentMeasure (weightAt weights) f.cubes)
  | split {f : Formula} {i : Nat} {whenTrue whenFalse : ℚ} (hi : i ∈ f.occurrences)
      (hread : i < weights.size) (htrue : Evaluation weights (f.restrict i true) whenTrue)
      (hfalse : Evaluation weights (f.restrict i false) whenFalse) :
      Evaluation weights f
        (weightAt weights i * whenTrue + (1 - weightAt weights i) * whenFalse)

namespace Covers

theorem lt_size (h : Covers weights f) {i : Nat} (hi : i ∈ f.occurrences) : i < weights.size := by
  obtain ⟨w, hw, -⟩ := h i hi
  exact (Array.getElem?_eq_some_iff.1 hw).1

theorem weightAt_bounds (h : Covers weights f) {i : Nat} (hi : i ∈ f.occurrences) :
    0 ≤ weightAt weights i ∧ weightAt weights i ≤ 1 := by
  obtain ⟨w, hw, hbounds⟩ := h i hi
  have hread : weightAt weights i = w := by
    rw [weightAt, Array.getD_eq_getD_getElem?, hw, Option.getD_some]
  rwa [hread]

/-- Splitting brings in no variables, so all weights stay covered. -/
theorem restrict (h : Covers weights f) (i : Nat) (v : Bool) : Covers weights (f.restrict i v) :=
  fun j hj => h j (mem_occurrences_restrict hj).1

theorem exactMass_bounds (h : Covers weights f) :
    0 ≤ f.exactMass (weightAt weights) ∧ f.exactMass (weightAt weights) ≤ 1 := by
  have hbounds : ∀ i ∈ f.vars.toFinset, 0 ≤ weightAt weights i ∧ weightAt weights i ≤ 1 :=
    fun i hi => h.weightAt_bounds (mem_ofList.1 (List.mem_toFinset.1 hi))
  exact ⟨mass_nonneg hbounds, mass_le_one hbounds⟩

end Covers

/-- **All evaluations agree**: each ends at the mass of the formula. -/
theorem Evaluation.eq_exactMass (h : Evaluation weights f q) (hf : f.Ordered) :
    q = f.exactMass (weightAt weights) := by
  induction h with
  | falsity h => exact (exactMass_of_isFalse h).symm
  | truth h => exact (exactMass_of_isTrue h).symm
  | independent h hread =>
    exact independentMeasure_eq h fun i hi => List.mem_toFinset.2 (mem_ofList.2 hi)
  | split hi _ _ _ ihtrue ihfalse =>
    rw [exactMass_restrict hf hi, ← ihtrue hf.restrict, ← ihfalse hf.restrict]

/-- The recursion without looking results up. -/
def plainMeasure (weights : Array ℚ) (splits : Nat) (f : Formula) : ℚ :=
  measureBy (m := Id) (weightAt weights) (fun _ x => x) splits f

/-- The recursion is an evaluation, as long as all weights can be read. -/
theorem evaluation_plainMeasure {splits : Nat} (hs : f.vars.length ≤ splits)
    (hw : Covers weights f) : Evaluation weights f (plainMeasure weights splits f) := by
  unfold plainMeasure
  induction f using splitInduction generalizing splits with
  | falsity f hfalse =>
    rw [measureBy_of_isFalse hfalse]
    exact .falsity hfalse
  | truth f htrue =>
    rw [measureBy_of_isTrue htrue]
    exact .truth htrue
  | independent f hfalse htrue hshared =>
    rw [measureBy_of_independent hfalse htrue hshared]
    exact .independent ((sharedVariable?_spec f).2 hshared) fun i hi => hw.lt_size hi
  | split f i hfalse htrue hshared ihtrue ihfalse =>
    have hle := length_vars_restrict_le hshared hs
    have hi := (sharedVariable?_spec f).1 i hshared
    rw [measureBy_of_split hfalse htrue hshared hs]
    exact .split hi (hw.lt_size hi) (ihtrue (hle true) (hw.restrict i true))
      (ihfalse (hle false) (hw.restrict i false))

/-! ## What is computed -/

/-- **Formulas are evaluated exactly.** For any sorted cubes, redundant or contradictory ones
among them, and weights that are probabilities, the sum over the assignments of the variables under
which the formula holds, each with the product of its weights, is

* what the computation with remembered results gives, with any number of splits that is not less
  than the number of variables;
* what an evaluation ends at, whatever it is split on, and some evaluation ends there;
* a probability, so that taking the nearest probability changes nothing. -/
theorem measure_exact (hf : f.Ordered) (hw : Covers weights f)
    (hV : ∀ i ∈ f.occurrences, i ∈ V) :
    ∃ q, q = mass (weightAt weights) V (fun T => f.holds (choosing T) = true) ∧
      f.measure (weightAt weights) = q ∧
      (∀ splits, f.vars.length ≤ splits → (measureBy (m := Remember Formula ℚ Id)
        (weightAt weights) remember splits f).fresh.run = q) ∧
      (∀ r, Evaluation weights f r ↔ r = q) ∧
      0 ≤ q ∧ q ≤ 1 ∧ Weight.clamp q = q := by
  have hmeasure : f.measure (weightAt weights) = f.exactMass (weightAt weights) :=
    measure_eq_exactMass hf
  obtain ⟨h0, h1⟩ := hw.exactMass_bounds
  refine ⟨f.exactMass (weightAt weights), exactMass_eq hV, hmeasure, ?_, ?_, h0, h1,
    clamp_eq_self h0 h1⟩
  · intro splits hs
    rw [measureBy_eq_of_le _ _ hs (Nat.le_refl _)]
    exact hmeasure
  · intro r
    constructor
    · exact fun h => h.eq_exactMass hf
    · rintro rfl
      have h := evaluation_plainMeasure (Nat.le_refl _) hw
      rwa [h.eq_exactMass hf] at h

end ProbDatalog.Formula

/-! ## Ways over a bridge -/

namespace ProbDatalog.Bridges

/-- Two ways that share a bridge, and a third one that contradicts itself. -/
def ways : Formula :=
  ⟨[[⟨0, true⟩, ⟨1, true⟩], [⟨0, true⟩, ⟨2, true⟩], [⟨1, false⟩, ⟨1, true⟩]]⟩

/-- How likely the bridge and the two ways from it are open. -/
def chances : Array ℚ := #[1 / 2, 1 / 3, 1 / 4]

theorem covers_ways : Formula.Covers chances ways := by
  have hread : ∀ i ∈ ways.occurrences, ∀ w ∈ chances[i]?, 0 ≤ w ∧ w ≤ 1 := by decide +kernel
  have hlt : ∀ i ∈ ways.occurrences, i < chances.size := by decide +kernel
  intro i hi
  have hw := Array.getElem?_eq_getElem (hlt i hi)
  exact ⟨_, hw, hread i hi _ hw⟩

/-- Splitting on the bridge, or on a way first, or multiplying where that is allowed: what is
computed is always one fourth. -/
theorem measure_ways : ways.Ordered ∧ Formula.Covers chances ways ∧
    ways.measure (Formula.weightAt chances) = 1 / 4 ∧
    ∀ r, Formula.Evaluation chances ways r ↔ r = 1 / 4 := by
  have hordered : ways.Ordered := by
    unfold Formula.Ordered Sorted.IsSorted
    decide +kernel
  have hvalue : ways.measure (Formula.weightAt chances) = 1 / 4 := by decide +kernel
  obtain ⟨q, -, hmeasure, -, hall, -⟩ :=
    Formula.measure_exact (V := {0, 1, 2}) hordered covers_ways (by decide +kernel)
  obtain rfl : q = 1 / 4 := hmeasure.symm.trans hvalue
  exact ⟨hordered, covers_ways, hvalue, hall⟩

end ProbDatalog.Bridges
