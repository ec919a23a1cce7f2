import Std.Data.TreeMap

/-!
# Remembered results

A recursion that meets the same arguments again and again can look its results up. `remember` is
the step that does so. Recursions take this step as a parameter: with `remember` they are fast, and
with the step that always computes they are the plain recursions that laws are about.

* `remember_of_getElem?`: a result that is kept is not computed again.
-/

namespace ProbDatalog

/-- Computations in `m` that keep results by key. -/
abbrev Remember (κ ρ : Type) [Ord κ] (m : Type → Type) : Type → Type :=
  StateT (Std.TreeMap κ ρ) m

variable {κ ρ : Type} [Ord κ] {m : Type → Type} [Monad m]

/-- The result that is kept for a key. If there is none, it is computed and kept. -/
def remember (key : κ) (compute : Remember κ ρ m ρ) : Remember κ ρ m ρ := fun kept =>
  match kept[key]? with
  | some r => pure (r, kept)
  | none => do
    let (r, kept) ← compute kept
    pure (r, kept.insert key r)

/-- Run a computation with nothing kept. -/
def Remember.fresh {α : Type} (x : Remember κ ρ m α) : m α := do
  let (a, _) ← x ∅
  pure a

/-- A result that is kept is not computed again. -/
theorem remember_of_getElem? {key : κ} {compute : Remember κ ρ m ρ} {kept : Std.TreeMap κ ρ}
    {r : ρ} (h : kept[key]? = some r) : remember key compute kept = pure (r, kept) := by
  simp [remember, h]

end ProbDatalog
