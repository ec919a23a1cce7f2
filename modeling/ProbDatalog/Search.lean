import ProbDatalog.Tables
import ProbDatalog.Theory

/-!
# Searches

A search answers literals from a theory and keeps what it finds in tables. This module holds its
state and the few steps that read and change the state.

* `saturating_of_complete`: a pattern that is complete is not searched again.
-/

namespace ProbDatalog

/-- Why a search stops without a result. -/
inductive Halt where
  /-- The query fails. -/
  | failed (error : Error)
  /-- The bound on the depth of calls or on the number of passes was too small. -/
  | exhausted
  deriving DecidableEq

/-- The state of a search. -/
structure Search (σ : Type) where
  /-- What has been derived. -/
  tables : σ
  /-- The patterns that this pass has come to. -/
  expanded : List CallPattern
  /-- The patterns whose tables do not grow any more. -/
  complete : List CallPattern
  /-- The patterns whose negation is being decided. -/
  negating : List CallPattern
  /-- How often a table has grown. -/
  additions : Nat
  /-- The scope of the clause that was tried last. -/
  scope : UInt32
  /-- The number of passes so far. -/
  passes : Nat

namespace Search

/-- A search that has found nothing; scopes are counted from the one given. -/
def start {σ : Type} (tables : σ) (scope : UInt32) : Search σ := ⟨tables, [], [], [], 0, scope, 0⟩

end Search

/-- Steps of a search. A step that fails leaves what it has changed. -/
abbrev Searching (σ : Type) : Type → Type := ExceptT Halt (StateM (Search σ))

namespace Searching

variable {σ α : Type}

/-- Stop with an error. -/
def fail (e : Error) : Searching σ α := throw (.failed e)

/-- Stop with the error, if it is one. -/
def ofExcept : Except Error α → Searching σ α
  | .ok a => pure a
  | .error e => fail e

/-- Change the tables. -/
def onTables (f : σ → Except StoreFault α × σ) : Searching σ α := fun s =>
  match f s.tables with
  | (.ok a, tables) => (.ok a, { s with tables })
  | (.error e, tables) => (.error (.failed (.storage e)), { s with tables })

/-- Read the tables. -/
def readTables (f : σ → Except StoreFault α) : Searching σ α := onTables fun t => (f t, t)

/-- The next scope for a clause. After the last one they start over; scope `0` is left out. -/
def freshScope : Searching σ UInt32 := do
  let next := max ((← get).scope + 1) 1
  modify fun s => { s with scope := next }
  return next

/-- Note that the pass has come to a pattern, and tell whether it has to be expanded: that is so
unless it is complete or the pass has been there before. -/
def enter (p : CallPattern) : Searching σ Bool := fun s =>
  if s.complete.contains p || s.expanded.contains p then (.ok false, s)
  else (.ok true, { s with expanded := p :: s.expanded })

/-- Run a search for a pattern unless it is complete. The search has its own record of the patterns
it came to; if it succeeds, they are all complete. -/
def saturating (p : CallPattern) (x : Searching σ Unit) : Searching σ Unit := fun s =>
  if s.complete.contains p then (.ok (), s)
  else
    match x { s with expanded := [] } with
    | (.ok (), t) =>
      (.ok (), { t with expanded := s.expanded, complete := t.expanded ++ t.complete })
    | (.error h, t) => (.error h, { t with expanded := s.expanded })

/-- Run a search for a pattern in order to decide its negation `l`. It is an error to come to the
same decision within itself. -/
def refuting (p : CallPattern) (l : Literal) (x : Searching σ Unit) : Searching σ Unit := fun s =>
  if s.negating.contains p then (.error (.failed (.unstratified l)), s)
  else
    let (r, t) := x { s with negating := p :: s.negating }
    (r, { t with negating := t.negating.erase p })

/-- A pattern that is complete is not searched again. -/
theorem saturating_of_complete {p : CallPattern} {x : Searching σ Unit} {s : Search σ}
    (h : p ∈ s.complete) : saturating p x s = (.ok (), s) := by
  simp [saturating, h]

end Searching

end ProbDatalog
