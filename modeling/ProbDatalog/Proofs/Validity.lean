import ProbDatalog.Proofs.Exactness
import ProbDatalog.Proofs.Probabilities

/-!
# Certainty is probability one

Whether a literal is certain is decided by splitting its formula on one variable after the other,
without counting anything. How probable it is is computed by splitting on variables that occur most
often, with the weights of the proofs. The two ways agree: a formula is valid if and only if its
probability is one, and it has no cube if and only if its probability is zero. This is so because a
proof that is a variable has a value strictly between zero and one, so every choice of proofs has
some mass, and because no cube contradicts itself.

* `Formula.validBySplitting`: the decision that takes the first variable of the first cube.
* `Formula.validBySplitting_eq_isValid`: the order of the splits does not matter.
* `Lineage.isFalse_numbered`, `Lineage.isValid_numbered`: neither does the numbering.
* `mass_eq_one_iff_forall`, `mass_eq_zero_iff_forall`: all worlds, and no world.
* `certainty_is_probability_one`: **a literal is certain if and only if its probability is one, and
  its formula has no cube if and only if its probability is zero.**
-/

namespace ProbDatalog

namespace Formula

variable {f : Formula}

/-! ## Validity by splitting -/

/-- Whether the formula holds under all assignments, by setting the variable that comes first. -/
def validBySplitting (f : Formula) : Bool :=
  if f.isTrue then true
  else match _ : f.occurrences.head? with
    | none => false
    | some i => validBySplitting (f.restrict i false) && validBySplitting (f.restrict i true)
termination_by f.vars.length
decreasing_by all_goals exact length_vars_restrict_lt (List.mem_of_head? ‹_›) _

theorem validBySplitting_iff (hf : f.Ordered) :
    f.validBySplitting = true ↔ ∀ a, f.holds a = true := by
  induction f using validBySplitting.induct with
  | case1 f htrue =>
    unfold validBySplitting
    simp [htrue, holds_of_isTrue htrue]
  | case2 f htrue hnone =>
    unfold validBySplitting
    rw [if_neg htrue]
    split
    next =>
      -- without variables the formula would be true if it held at all
      refine iff_of_false (by simp) fun h => htrue ?_
      exact isTrue_of_holds (List.head?_eq_none_iff.1 hnone) (h fun _ => true)
    next i hi => rw [hnone] at hi; cases hi
  | case3 f htrue i hi ih0 ih1 =>
    unfold validBySplitting
    rw [if_neg htrue]
    split
    next hnone => rw [hnone] at hi; cases hi
    next j hj =>
      obtain rfl : i = j := Option.some.inj (hi.symm.trans hj)
      rw [Bool.and_eq_true, ih0 hf.restrict, ih1 hf.restrict, forall_restrict_iff hf]

/-- **The order of the splits does not matter.** -/
theorem validBySplitting_eq_isValid (hf : f.Ordered) : f.validBySplitting = f.isValid := by
  rw [Bool.eq_iff_iff, validBySplitting_iff hf, isValid_iff hf]

end Formula

/-! ## Numbered formulas -/

namespace Lineage

variable {s : ProofSet} {L : Lineage}

theorem ordered_numbered (L : Lineage) : L.numbered.Ordered := Formula.ordered_rename _ _

theorem isFalse_numbered (L : Lineage) : L.numbered.isFalse = L.formula.isFalse :=
  Formula.isFalse_rename L.formula _

/-- Variables that are numbered stay apart. -/
theorem Fits.injOn_idxOf (hL : L.Fits s) :
    Set.InjOn L.met.idxOf {i | i ∈ L.formula.occurrences} := fun i hi _ _ heq =>
  (List.idxOf_inj (hL.occurs i hi)).1 heq

theorem isValid_numbered (hL : L.Sound s) : L.numbered.isValid = L.formula.isValid := by
  rw [Bool.eq_iff_iff, Formula.isValid_iff L.ordered_numbered,
    Formula.isValid_iff hL.proper.ordered]
  exact Formula.forall_holds_rename hL.fits.injOn_idxOf

end Lineage

/-! ## Choices -/

namespace ProofSet

variable {s : ProofSet} {P : Set Literal → Prop} {v : ℚ} {l : Literal}

/-- A proof that may fail to take effect may also take effect. -/
theorem exact_of_mem_choices {π : Proof} (hπ : π ∈ s.choices) :
    0 < π.probability.exact ∧ π.probability.exact < 1 :=
  ⟨π.probability.exact_pos, Probability.exact_lt_one (by
    simpa [Proof.isProbabilistic] using (mem_choices.1 hπ).2)⟩

/-- What holds in all worlds holds whatever is chosen. -/
theorem forall_chosen_iff :
    (∀ T ⊆ s.choices, P (s.truth (World.of T))) ↔ ∀ ω, P (s.truth ω) :=
  ⟨fun h ω => truth_chosen (s := s) ω ▸ h _ (Finset.filter_subset _ _), fun h _ _ => h _⟩

/-- What holds in all worlds has all mass. -/
theorem mass_eq_one_iff_forall :
    (mass (fun π => π.probability.exact) s.choices fun T => P (s.truth (World.of T))) = 1 ↔
      ∀ ω, P (s.truth ω) := by
  rw [mass_eq_one_iff fun π hπ => exact_of_mem_choices hπ, forall_chosen_iff]

/-- What holds in no world has no mass. -/
theorem mass_eq_zero_iff_forall :
    (mass (fun π => π.probability.exact) s.choices fun T => P (s.truth (World.of T))) = 0 ↔
      ∀ ω, ¬P (s.truth ω) := by
  rw [mass_eq_zero_iff fun π hπ => exact_of_mem_choices hπ,
    forall_chosen_iff (P := fun facts => ¬P facts)]

/-- The formula of a literal has no cube if and only if the literal holds in no world. -/
theorem isFalse_iff_not_holdsIn (hs : s.dependencies.Stratified) (hnd : s.toList.Nodup)
    {L : Lineage} (hL : s.lineage? l = some L) :
    L.formula.isFalse = true ↔ ∀ ω, ¬l.HoldsIn (s.truth ω) := by
  rw [isFalse_iff_holds hnd (sound_lineage? hL)]
  refine forall_congr' fun ω => ?_
  have hholds : L.formula.holds (s.assignment ω) = true ↔ l.HoldsIn (s.truth ω) :=
    (holds_lineage? (truth_eq hs ω) hL).2
  rw [← hholds, Bool.not_eq_true]

end ProofSet

/-- **A literal is certain if and only if its probability is one, and its formula has no cube if and
only if its probability is zero.** For every set of proofs where no fact rests on its own negation
and every literal, negated or not, there is a formula, it is known whether it is valid, and in exact
arithmetic there is a probability. Validity may be decided on the numbered formula, by splitting it
on the variable that comes first.

The decision is right for all formulas: it ends, in whichever order variables are split on, and says
whether all assignments satisfy the formula, be it made from proofs or not. -/
theorem certainty_is_probability_one :
    (∀ (s : ProofSet) (l : Literal), s.dependencies.Stratified → s.toList.Nodup →
      ∃ L certain v, s.lineage? l = some L ∧ s.isCertain? l = some certain ∧
        s.probability? ℚ l = some v ∧ L.numbered.validBySplitting = certain ∧
        (certain = true ↔ v = 1) ∧ (L.numbered.isFalse = true ↔ v = 0)) ∧
    ∀ f : Formula, f.Ordered → f.validBySplitting = f.isValid ∧
      (f.isValid = true ↔ ∀ a, f.holds a = true) := by
  refine ⟨fun s l hs hnd => ?_, fun f hf =>
    ⟨f.validBySplitting_eq_isValid hf, f.isValid_iff hf⟩⟩
  obtain ⟨L, hL⟩ := ProofSet.exists_lineage? hs l
  obtain ⟨v, hv⟩ := ProofSet.exists_probability? (α := ℚ) hs l
  have hcertain : s.isCertain? l = some L.formula.isValid := by
    rw [ProofSet.isCertain?, hL, Option.map_some]
  have hmass := ProofSet.probability?_eq_mass_holdsIn hs hnd hv
  refine ⟨L, _, v, hL, hcertain, hv, ?_, ?_, ?_⟩
  · rw [Formula.validBySplitting_eq_isValid L.ordered_numbered,
      Lineage.isValid_numbered (ProofSet.sound_lineage? hL)]
  · rw [ProofSet.isCertain?_iff_holdsIn hs hnd hcertain, hmass,
      ProofSet.mass_eq_one_iff_forall (P := l.HoldsIn)]
  · rw [Lineage.isFalse_numbered, ProofSet.isFalse_iff_not_holdsIn hs hnd hL, hmass,
      ProofSet.mass_eq_zero_iff_forall (P := l.HoldsIn)]

end ProbDatalog

/-! ## A picnic -/

namespace ProbDatalog.Picnic

open Rumours (say quarter)

/-- When it rains there is a picnic at home, and in the park otherwise. -/
def picnic : ProofSet :=
  .ofList [⟨say "rain", [], quarter, ⟨0⟩⟩,
    ⟨say "picnic", [.relational (say "rain")], .certain, ⟨1⟩⟩,
    ⟨say "picnic", [.relational (say "rain").negate], .certain, ⟨2⟩⟩,
    ⟨say "umbrella", [.relational (say "rain"), .relational (say "rain").negate], .certain, ⟨3⟩⟩]

theorem picnic_stratified : picnic.dependencies.Stratified :=
  ProofSet.stratified_of_rank (fun f => if f.predicate = "rain" then 0 else 1) (by decide +kernel)

/-- That there is a picnic is certain, though neither of its proofs is, so its probability is one.
Splitting the two cubes finds this out. -/
theorem picnic_is_certain : picnic.dependencies.Stratified ∧ picnic.toList.Nodup ∧
    (Formula.mk [[⟨0, false⟩], [⟨0, true⟩]]).Ordered ∧
    picnic.isCertain? (say "picnic") = some true ∧ picnic.probability? ℚ (say "picnic") = some 1 ∧
    picnic.probability? ℚ (say "umbrella") = some 0 ∧
    (Formula.mk [[⟨0, false⟩], [⟨0, true⟩]]).validBySplitting = true := by
  have hnd : picnic.toList.Nodup := by decide +kernel
  have hordered : (Formula.mk [[⟨0, false⟩], [⟨0, true⟩]]).Ordered := by
    simp [Formula.Ordered]
  obtain ⟨-, certain, v, -, hc, hv, -, hone, -⟩ :=
    certainty_is_probability_one.1 picnic (say "picnic") picnic_stratified hnd
  obtain ⟨L, -, v', hL, -, hv', -, -, hzero⟩ :=
    certainty_is_probability_one.1 picnic (say "umbrella") picnic_stratified hnd
  have hcertain : picnic.isCertain? (say "picnic") = some true := by decide +kernel
  have hfalse : (picnic.lineage? (say "umbrella")).map (·.numbered.isFalse) = some true := by
    decide +kernel
  obtain rfl : certain = true := Option.some.inj (hc.symm.trans hcertain)
  rw [hL, Option.map_some, Option.some.injEq] at hfalse
  refine ⟨picnic_stratified, hnd, hordered, hcertain, by rw [hv, hone.1 rfl],
    by rw [hv', hzero.1 hfalse], ?_⟩
  rw [(certainty_is_probability_one.2 _ hordered).1]
  decide

end ProbDatalog.Picnic
