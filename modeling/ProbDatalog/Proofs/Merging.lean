import ProbDatalog.Proofs.Maps
import ProbDatalog.Proofs.Unifiers

/-!
# Merging bindings

Bindings are added to others one by one, each to what the ones before have made of them. Those that
are added may be anything, with chains among them, cycles, or bindings that contradict the others;
they are read as equations and never followed.

* `satisfiedBy_ofList_iff`: bindings that were made one after the other are read as equations.
* `merge_conjunction`: **to merge bindings is to take their conjunction.**
-/

namespace ProbDatalog.Substitution

variable {s : Substitution} {τ : Assignment}

/-- The equations between the variables and the terms of bindings. -/
def equations (s : Substitution) : List (Term × Term) := s.toList.map fun b => (.var b.1, b.2)

/-- **Bindings that were made one after the other are read as equations.** -/
theorem satisfiedBy_ofList_iff (bindings : List (Variable × Term)) :
    (ofList bindings).SatisfiedBy τ ↔
      ∀ p ∈ (ofList bindings).equations, p.1.assign τ = p.2.assign τ := by
  have hread : ∀ v t, (v, t) ∈ (ofList bindings).toList ↔ (ofList bindings).get? v = some t :=
    fun _ _ => Assoc.mem_entries_iff (Assoc.nodup_keys_ofList bindings)
  simp only [equations, List.forall_mem_map, Prod.forall, Term.assign_var, hread]
  exact Iff.rfl

/-- **To merge bindings is to take their conjunction.** However the other bindings were made, adding
them to bindings that can be followed to an end comes to an end, leaves bindings that can be
followed to an end, and overwrites none. It succeeds where some assignment satisfies both, and then
just such assignments satisfy what it leaves. -/
theorem merge_conjunction (hs : s.AlwaysEnds) (bindings : List (Variable × Term)) :
    JoinsAll s (ofList bindings).equations (s.merge (ofList bindings)) ∧
    (s.merge (ofList bindings)).2.AlwaysEnds ∧
    s.KeptBy (s.merge (ofList bindings)).2 ∧
    ((s.merge (ofList bindings)).1 = true ↔
      ∃ τ, s.SatisfiedBy τ ∧ (ofList bindings).SatisfiedBy τ) ∧
    ((s.merge (ofList bindings)).1 = true → ∀ τ, (s.merge (ofList bindings)).2.SatisfiedBy τ ↔
      s.SatisfiedBy τ ∧ (ofList bindings).SatisfiedBy τ) := by
  have hac := acyclic_iff_alwaysEnds.2 hs
  have hjoins : JoinsAll s (ofList bindings).equations (s.merge (ofList bindings)) :=
    hac.joinsAll_unifyPairs _
  have hsat := hac.unifyPairs_satisfiedBy (ofList bindings).equations
  simp only [← satisfiedBy_ofList_iff] at hsat
  exact ⟨hjoins, acyclic_iff_alwaysEnds.1 (hjoins.acyclic hac), hjoins.keeps, hsat⟩

end ProbDatalog.Substitution

/-! ## Circles of aliases -/

namespace ProbDatalog.Aliases

open Substitution

/-- Two names stand for each other, and one of them for a constant. -/
def circle : List (Variable × Term) :=
  [(⟨"Cat", 0⟩, named "Bea"), (⟨"Bea", 0⟩, named "Cat"), (⟨"Ann", 0⟩, .const (.string "x"))]

/-- Two names stand for different constants. -/
def quarrel : List (Variable × Term) :=
  [(⟨"Ann", 0⟩, .const (.string "x")), (⟨"Bea", 0⟩, .const (.string "y"))]

theorem circle_never_ends : ¬(ofList circle).AlwaysEnds := by
  intro h
  obtain ⟨t, ht⟩ := h (named "Cat")
  have hcat : (ofList circle).Next ⟨"Cat", 0⟩ ⟨"Bea", 0⟩ := by
    unfold Next
    decide +kernel
  have hbea : (ofList circle).Next ⟨"Bea", 0⟩ ⟨"Cat", 0⟩ := by
    unfold Next
    decide +kernel
  exact ht.not_transGen_self (.tail (.single hcat) hbea)

/-- Where Ann is Bea, bindings that lead back to themselves are merged all the same, and the three
names get one constant. A quarrel between Ann and Bea is found out, and what was bound before it
stays. -/
theorem merge_circle : known.AlwaysEnds ∧ ¬(ofList circle).AlwaysEnds ∧
    known.merge (ofList circle) =
      (true, ofList [(⟨"Ann", 0⟩, named "Bea"), (⟨"Cat", 0⟩, named "Bea"),
        (⟨"Bea", 0⟩, .const (.string "x"))]) ∧
    (∃ τ, known.SatisfiedBy τ ∧ (ofList circle).SatisfiedBy τ) ∧
    known.merge (ofList quarrel) =
      (false, ofList [(⟨"Ann", 0⟩, named "Bea"), (⟨"Bea", 0⟩, .const (.string "x"))]) ∧
    ¬∃ τ, known.SatisfiedBy τ ∧ (ofList quarrel).SatisfiedBy τ := by
  have hcircle : known.merge (ofList circle) = (true, ofList [(⟨"Ann", 0⟩, named "Bea"),
      (⟨"Cat", 0⟩, named "Bea"), (⟨"Bea", 0⟩, .const (.string "x"))]) := by decide +kernel
  have hquarrel : known.merge (ofList quarrel) = (false, ofList [(⟨"Ann", 0⟩, named "Bea"),
      (⟨"Bea", 0⟩, .const (.string "x"))]) := by decide +kernel
  obtain ⟨-, -, -, hsome, -⟩ := merge_conjunction known_ends circle
  obtain ⟨-, -, -, hnone, -⟩ := merge_conjunction known_ends quarrel
  refine ⟨known_ends, circle_never_ends, hcircle, hsome.1 (by rw [hcircle]), hquarrel, fun h => ?_⟩
  have hfalse := hnone.2 h
  rw [hquarrel] at hfalse
  cases hfalse

end ProbDatalog.Aliases
