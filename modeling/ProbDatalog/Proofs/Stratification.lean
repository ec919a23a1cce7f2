import ProbDatalog.Evaluable.Standard
import ProbDatalog.Proofs.Distribution
import ProbDatalog.Proofs.WellFounded

/-!
# Which recorded facts rest on their own negations

Where no call is rejected while it is open, the proofs in the tables never let a fact rest on its
own negation, so the truth of every fact can be computed from them. A call that is rejected because
an argument is open, and accepted once it is given, makes what is recorded depend on the pattern of
the call, and then a negation may be decided without a proof that another pattern finds later.

* `Reached.stratified_recorded`: **no recorded fact rests on its own negation**, where calls do not
  depend on what is open.
* `Lamps.not_stratified`: a comparison with an open argument lets a fact rest on its own negation.
-/

namespace ProbDatalog

section Stratified

variable {σ : Type} [Tables σ] [LawfulTables σ] {w : Theory} {s : Search σ}

theorem Theory.Regular.consistent (hw : w.Regular) (hd : w.Decides) (hs : Reached w s) :
    Consistent w.meaning s :=
  hs.consistent hw ((Reading.wellFounded w).lawful hd) ((Reading.wellFounded w).judges hw.asserted)

/-- **No recorded fact rests on its own negation**, where no call is rejected while it is open. That
holds in all states of a session and wherever a pass ends that starts from them, so what follows
from recorded proofs can be computed. -/
theorem Reached.stratified_recorded (hw : w.Regular) (hd : w.Decides) (hs : Reached w s)
    (D : ProofSet) :
    ((∀ π ∈ D.toList, π ∈ s.recorded) →
      D.dependencies.Stratified ∧ ∀ l, (D.lineage? l).isSome = true) ∧
    ∀ depth l, w.registry.contains l.predicate = false →
      (∀ π ∈ D.toList, π ∈ (Searching.expand w depth (.of l) s).2.recorded) →
      D.dependencies.Stratified ∧ ∀ l, (D.lineage? l).isSome = true := by
  have hs' := hw.consistent hd hs
  have key : ∀ {t : Search σ}, Consistent w.meaning t → (∀ π ∈ D.toList, π ∈ t.recorded) →
      D.dependencies.Stratified ∧ ∀ l, (D.lineage? l).isSome = true := by
    intro t ht hD
    have hstrat := Search.recorded_stratified (R := Reading.wellFounded w) ht hD
    refine ⟨hstrat, fun l => ?_⟩
    obtain ⟨L, hL⟩ := ProofSet.exists_lineage? hstrat l
    simp [hL]
  refine ⟨key hs', fun depth l hl hD => key ?_ hD⟩
  exact (expand_calls hw ((Reading.wellFounded w).lawful hd)
    ((Reading.wellFounded w).judges hw.asserted) depth l s hl hs').1

end Stratified

namespace Birds

/-- The proof that one of the birds flies. -/
def fliesProof : Proof where
  head := about "flies" "tweety"
  body := [.relational (about "bird" "tweety"), .relational (about "heavy" "tweety").negate]
  probability := .certain
  clause := ⟨3⟩

/-- It has been asked what flies. -/
def flown : Search Resident :=
  (Request.solve (general "flies")).leave (theory .problog) 9 (.start .empty 0)

theorem reached_flown : Reached (theory .problog) flown :=
  (Reached.start isFresh_empty 0).ask 9 (.solve (general "flies"))

/-- The bird flies as it is not heavy, and that does not come back to it. -/
theorem stratified_flies : fliesProof ∈ flown.recorded ∧
    (ProofSet.ofList [fliesProof]).dependencies.Stratified ∧
    ∀ l, ((ProofSet.ofList [fliesProof]).lineage? l).isSome = true := by
  have hrec : fliesProof ∈ flown.recorded := ⟨.of (general "flies"), by decide +kernel⟩
  refine ⟨hrec, ((Reached.stratified_recorded (plain .problog).regular (plain .problog).decides
    reached_flown _).1 fun π hπ => ?_)⟩
  rw [List.mem_singleton.1 hπ]
  exact hrec

end Birds

/-! ## Lamps -/

namespace Lamps

/-- A lamp with a number. -/
def lit (t : Term) : Literal := .of "lit" [t]

/-- A lamp whose number is not given. -/
def any : Term := .var ⟨"Z", 0⟩

/-- The lamp with number one. -/
def first : Term := .const (.number .one)

/-- The number five. -/
def five : Term := .const (.number ⟨0x4014000000000000⟩)

/-- It is dark unless it is bright. -/
def dark : Literal := .of "dark" []

/-- It is bright where a lamp is lit. -/
def bright : Literal := .of "bright" []

/-- The numbers below five. -/
def low (t : Term) : Literal := .of "<" [t, five]

/-- The first lamp is lit half of the time, and the lamps below the fifth are lit where it is
dark. -/
def clauses : List Clause :=
  [⟨lit first, [], Birds.half⟩, ⟨lit any, [low any, dark], .certain⟩,
    ⟨bright, [lit any], .certain⟩, ⟨dark, [bright.negate], .certain⟩]

/-- The theory of lamps. -/
def theory : Theory := ⟨(Program.empty.assertAll clauses).2, .standard, .problog⟩

/-- It has been asked whether it is dark. -/
def asked : Search Resident := (Request.solve dark).leave theory 9 (.start .empty 0)

/-- It is dark because it is not bright. -/
def darkProof : Proof := ⟨dark, [.relational bright.negate], .certain, ⟨3⟩⟩

/-- It is bright because the first lamp is lit. -/
def brightProof : Proof := ⟨bright, [.relational (lit first)], .certain, ⟨2⟩⟩

/-- The first lamp is lit because it is dark. -/
def litProof : Proof := ⟨lit first, [.evaluable (low first), .relational dark], .certain, ⟨1⟩⟩

/-- A way in which it is dark only if it is not. -/
def circle : ProofSet := .ofList [darkProof, brightProof, litProof]

/-- Two requests succeed, and then the proofs in the tables make a fact rest on its own negation:
the comparison is rejected while the lamp is open, so the negation is decided without the proof that
the second request finds. -/
theorem not_stratified :
    (Searching.solve theory 9 dark (.start Resident.empty 0)).1 = .ok [dark] ∧
    (Searching.solve theory 9 (lit first) asked).1 = .ok [lit first] ∧
    (∀ π ∈ circle.toList, π ∈ ((Request.solve (lit first)).leave theory 9 asked).recorded) ∧
    ¬circle.dependencies.Stratified := by
  refine ⟨by decide +kernel, by decide +kernel, ?_, fun h => ?_⟩
  · have hall : ∀ π ∈ circle.toList,
        π ∈ ((Request.solve (lit first)).leave theory 9 asked).recordsOf (.of π.head) ∨
        π ∈ ((Request.solve (lit first)).leave theory 9 asked).recordsOf (.of (lit any)) := by
      decide +kernel
    exact fun π hπ => (hall π hπ).elim (fun h => ⟨_, h⟩) fun h => ⟨_, h⟩
  · have hlit : circle.dependencies.rests (lit first) dark :=
      ⟨litProof, by decide +kernel, rfl, dark, by decide +kernel, rfl⟩
    have hbright : circle.dependencies.rests bright (lit first) :=
      ⟨brightProof, by decide +kernel, rfl, lit first, by decide +kernel, rfl⟩
    have hdark : circle.dependencies.negates dark bright :=
      ⟨darkProof, by decide +kernel, rfl, bright.negate, by decide +kernel, rfl, rfl⟩
    -- dark rests on the negation of bright, and bright on the lamp, which rests on dark
    exact h dark bright hdark (.head hbright (.head hlit .refl))

end Lamps

end ProbDatalog
