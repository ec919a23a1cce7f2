import ProbDatalog.Proofs.Plain
import ProbDatalog.Proofs.Judgment
import ProbDatalog.Proofs.Sessions
import Mathlib.Order.FixedPoints

/-!
# The well-founded reading

Also a program in which facts depend on their own negations has a reading. What surely holds is the
least set of facts that follow where what may follow from that set itself cannot be negated; all
other facts that may follow are possible, and undecided.

* `Reading.wellFounded`: every theory has a reading.
* `Theory.Plain.consistent`: **all states of a session over a plain theory are consistent with it.**
-/

namespace ProbDatalog

namespace Theory

variable (w : Theory) (rules : Set Proof)

/-- What follows where exactly the facts outside of a set may be negated. -/
def outcome (facts : Set Literal) : Set Literal := consequences rules (w.Refutes facts)

variable {w rules} in
/-- More facts leave less to be negated. -/
theorem outcome_antitone : Antitone (w.outcome rules) := fun _ _ h =>
  consequences_mono Set.Subset.rfl fun _ hb => refutes_antitone h hb

/-- The facts that surely hold. -/
def sureFacts : Set Literal :=
  OrderHom.lfp ⟨fun facts => w.outcome rules (w.outcome rules facts),
    outcome_antitone.comp outcome_antitone⟩

/-- The facts that may hold. -/
def possibleFacts : Set Literal := w.outcome rules (w.sureFacts rules)

theorem outcome_possibleFacts : w.outcome rules (w.possibleFacts rules) = w.sureFacts rules :=
  OrderHom.map_lfp (f := ⟨fun facts => w.outcome rules (w.outcome rules facts),
    outcome_antitone.comp outcome_antitone⟩)

theorem sureFacts_subset_possibleFacts : w.sureFacts rules ⊆ w.possibleFacts rules := by
  -- the possible facts are a fixed point as well, and the sure ones are the least
  refine OrderHom.lfp_le_fixed _ ?_
  show w.outcome rules (w.outcome rules (w.possibleFacts rules)) = w.possibleFacts rules
  rw [outcome_possibleFacts]
  rfl

end Theory

/-- Every theory has a reading, in which nothing is sure or possible without need. -/
def Reading.wellFounded (w : Theory) : Reading w where
  sure := w.sureFacts
  possible := w.possibleFacts
  sure_subset _ := w.sureFacts_subset_possibleFacts _
  sure_eq _ := (w.outcome_possibleFacts _).symm
  possible_eq _ := rfl

/-- What may be found, and what must be found, in the well-founded reading. -/
def Theory.meaning (w : Theory) : Meaning w := (Reading.wellFounded w).meaning

section Plain

variable {σ : Type} [Tables σ] [LawfulTables σ] {w : Theory} {s : Search σ}

theorem Theory.Plain.lawful (hw : w.Plain) : w.meaning.Lawful :=
  (Reading.wellFounded w).lawful hw.decides

theorem Theory.Plain.judges (hw : w.Plain) : w.meaning.Judges σ :=
  (Reading.wellFounded w).judges hw.asserted

/-- **All states of a session over a plain theory are consistent with the well-founded reading.** -/
theorem Theory.Plain.consistent (hw : w.Plain) (hs : Reached w s) : Consistent w.meaning s :=
  hs.consistent hw.regular hw.lawful hw.judges

end Plain

end ProbDatalog
