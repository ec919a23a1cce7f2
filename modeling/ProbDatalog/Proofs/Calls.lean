import ProbDatalog.Proofs.Steps

/-!
# Sequences of calls

A search is used by one call after the other, whatever the calls before have come to: one that fails
leaves what it has changed, and the next one goes on from there. A call is given its own bound.

* `Call.forall_mem_results`: what every call keeps, and what every result is like.
-/

namespace ProbDatalog

/-- A call of a search. -/
inductive Call where
  | solve (query : Literal)
  | isAnswer (fact : Literal)
  | probability (fact : Literal)
  | proofs (query : Literal)
  | justification (fact : Literal)
  | effort

namespace Call

/-- What calls yield. -/
inductive Result (α : Type) where
  | answers (l : List Literal)
  | holds (b : Bool)
  | probability (x : α)
  | proofs (s : ProofSet)
  | effort (e : Effort)

variable {σ : Type} [Tables σ] (w : Theory) (α : Type) [Weight α]

/-- Carry out a call. -/
def run (depth : Nat) : Call → Searching σ (Result α)
  | solve q => return .answers (← Searching.solve w depth q)
  | isAnswer f => return .holds (← Searching.isAnswer w depth f)
  | probability f => return .probability (← Searching.probability w depth α f)
  | proofs q => return .proofs (← Searching.proofs w depth q)
  | justification f => return .proofs (← Searching.justification f)
  | effort => return .effort (← Searching.effort)

/-- The results of calls with their bounds, one after the other. -/
def results (s : Search σ) : List (Nat × Call) → List (Except Halt (Result α))
  | [] => []
  | (depth, c) :: rest => (c.run w α depth s).1 :: results (c.run w α depth s).2 rest

variable {w α} {P : Search σ → Prop} {Q : Except Halt (Result α) → Prop} {s : Search σ}

/-- If every call leads from states with `P` to a result with `Q` and keeps `P`, then all results
have `Q`. -/
theorem forall_mem_results
    (h : ∀ depth (c : Call) s, P s → Searching.After (c.run w α depth) s fun r t => Q r ∧ P t)
    (hs : P s) (calls : List (Nat × Call)) : ∀ r ∈ results w α s calls, Q r := by
  induction calls generalizing s with
  | nil => simp [results]
  | cons call rest ih =>
    obtain ⟨depth, c⟩ := call
    obtain ⟨hq, hp⟩ := h depth c s hs
    intro r hr
    rcases List.mem_cons.1 hr with rfl | hr
    · exact hq
    · exact ih hp r hr

end Call

end ProbDatalog
