import ProbDatalog.Proofs.Exactness
import ProbDatalog.Proofs.Probabilities

/-!
# What is outside the support does not matter

The support of a literal leaves out proofs that the search for its derivations came to, but could
not use. Asked about its support instead of the whole set, a literal has an equivalent formula, it
is certain if and only if it was, and it is as probable. The formulas themselves may differ: without
the other proofs variables are numbered in another way, and fewer facts can stand behind a goal.

The formulas are compared in the worlds of all proofs, where a variable has the value of the proof
that it stands for. They need not be compared step by step, since both say when the literal holds
in a perfect model, and these models agree on it.

* `holdsIn_of_support?`: a literal, negated or not, holds in the same worlds of its support.
* `mass_of_support?`: these worlds have the same mass.
* `support?_suffices`: **the support of a literal is all that matters for it.**
-/

namespace ProbDatalog.ProofSet

variable {s t : ProofSet} {l : Literal} {ω : World} {L L' : Lineage}

theorem holdsIn_of_support? (hs : s.dependencies.Stratified) (h : s.support? l = some t)
    (ω : World) : l.HoldsIn (t.truth ω) ↔ l.HoldsIn (s.truth ω) :=
  Literal.holdsIn_congr (mem_truth_of_support? hs h).2

theorem sublist_of_support? (h : s.support? l = some t) : t.toList.Sublist s.toList := by
  obtain ⟨-, -, hsub, -⟩ := exists_lineage_of_support? h
  exact hsub

theorem choices_subset (h : t.toList ⊆ s.toList) : t.choices ⊆ s.choices := fun _ hπ =>
  mem_choices.2 ⟨h (mem_choices.1 hπ).1, (mem_choices.1 hπ).2⟩

/-- The numbered formula says in which worlds the literal holds. -/
theorem holds_numbered_iff (hs : s.dependencies.Stratified) (hL : s.lineage? l = some L)
    (ω : World) :
    L.numbered.holds (s.numberedAssignment L ω) = true ↔ l.HoldsIn (s.truth ω) := by
  rw [holds_numbered (fits_lineage? hL)]
  exact (holds_lineage? (truth_eq hs ω) hL).2

/-- The worlds in which a literal holds have the same mass among the choices of its support. -/
theorem mass_of_support? (hs : s.dependencies.Stratified) (h : s.support? l = some t)
    (p : Proof → ℚ) : mass p s.choices (fun T => l.HoldsIn (s.truth (World.of T))) =
      mass p t.choices fun T => l.HoldsIn (t.truth (World.of T)) := by
  have hsub := choices_subset (sublist_of_support? h).subset
  rw [mass_of_subset hsub fun T _ => ?_]
  · exact mass_congr fun T _ => (holdsIn_of_support? hs h _).symm
  -- choosing other proofs changes nothing for the support, and so nothing for the literal
  · rw [← holdsIn_of_support? hs h, ← holdsIn_of_support? hs h, truth_inter (Finset.Subset.refl _)]

/-- **The support of a literal is all that matters for it.** Where no fact rests on its own
negation, every literal, negated or not, has a support. In every world the formula that is made from
the support holds if and only if the formula that is made from the whole set does, each variable
standing for a proof. It is as certain and, in exact arithmetic, as probable. -/
theorem support?_suffices (hs : s.dependencies.Stratified) (hnd : s.toList.Nodup) (l : Literal) :
    ∃ t L L', s.support? l = some t ∧ s.lineage? l = some L ∧ t.lineage? l = some L' ∧
      t.toList.Sublist s.toList ∧
      (∀ ω, L'.numbered.holds (t.numberedAssignment L' ω) =
        L.numbered.holds (s.numberedAssignment L ω)) ∧
      (∃ certain, t.isCertain? l = some certain ∧ s.isCertain? l = some certain) ∧
      ∃ v, t.probability? ℚ l = some v ∧ s.probability? ℚ l = some v := by
  obtain ⟨t, h⟩ := exists_support? hs l
  have ht := stratified_of_support? hs h
  have hsub := sublist_of_support? h
  have hnd' : t.toList.Nodup := hnd.sublist hsub
  obtain ⟨L, hL⟩ := exists_lineage? hs l
  obtain ⟨L', hL'⟩ := exists_lineage? ht l
  obtain ⟨c, hc⟩ := exists_isCertain? hs l
  obtain ⟨c', hc'⟩ := exists_isCertain? ht l
  obtain ⟨v, hv⟩ := exists_probability? (α := ℚ) hs l
  obtain ⟨v', hv'⟩ := exists_probability? (α := ℚ) ht l
  have hcertain : c' = c := by
    rw [Bool.eq_iff_iff, isCertain?_iff_holdsIn ht hnd' hc', isCertain?_iff_holdsIn hs hnd hc]
    exact forall_congr' (holdsIn_of_support? hs h)
  have hvalue : v' = v := by
    rw [probability?_eq_mass_holdsIn ht hnd' hv', probability?_eq_mass_holdsIn hs hnd hv,
      mass_of_support? hs h]
  subst hcertain hvalue
  refine ⟨t, L, L', h, hL, hL', hsub, fun ω => ?_, ⟨_, hc', hc⟩, _, hv', hv⟩
  rw [Bool.eq_iff_iff, holds_numbered_iff ht hL', holds_numbered_iff hs hL,
    holdsIn_of_support? hs h]

end ProbDatalog.ProofSet

/-! ## A dark evening -/

namespace ProbDatalog.Evenings

open Rumours (say quarter)

/-- In a storm it is dark unless there is light. A lamp may work, and a candle would need matches
from a box that there is not. -/
def evening : ProofSet :=
  .ofList [⟨say "storm", [], quarter, ⟨0⟩⟩, ⟨say "lamp", [], quarter, ⟨1⟩⟩,
    ⟨say "match", [], quarter, ⟨2⟩⟩, ⟨say "light", [.relational (say "lamp")], .certain, ⟨3⟩⟩,
    ⟨say "light", [.relational (say "box"), .relational (say "match")], .certain, ⟨4⟩⟩,
    ⟨say "dark", [.relational (say "storm"), .relational (say "light").negate], .certain, ⟨5⟩⟩]

theorem evening_stratified : evening.dependencies.Stratified :=
  ProofSet.stratified_of_rank (fun f => if f.predicate = "dark" then 1 else 0) (by decide +kernel)

/-- The match and the proof that would need it are not in the support, and without them it is as
probable that it is not dark. -/
theorem dark_suffices : evening.dependencies.Stratified ∧ evening.toList.Nodup ∧
    ∃ t, evening.support? (say "dark").negate = some t ∧ t.size = 4 ∧ evening.size = 6 ∧
      ∃ v, t.probability? ℚ (say "dark").negate = some v ∧
        evening.probability? ℚ (say "dark").negate = some v := by
  have hnd : evening.toList.Nodup := by decide +kernel
  obtain ⟨t, L, L', h, -, -, -, -, -, hv⟩ :=
    ProofSet.support?_suffices evening_stratified hnd (say "dark").negate
  have hsize : (evening.support? (say "dark").negate).map ProofSet.size = some 4 := by
    decide +kernel
  rw [h, Option.map_some, Option.some.injEq] at hsize
  exact ⟨evening_stratified, hnd, t, h, hsize, by decide +kernel, hv⟩

end ProbDatalog.Evenings
