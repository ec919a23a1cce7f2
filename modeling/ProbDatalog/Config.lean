import ProbDatalog.Tables.Storage
import ProbDatalog.Theory

/-!
# Settings

What all queries of a reasoner have in common beside the program.
-/

namespace ProbDatalog

/-- The settings of all queries. -/
structure Config where
  mode : Mode
  storage : Storage
  /-- The number of decimals to which probabilities are rounded, if they are. -/
  precision : Option UInt32
  deriving DecidableEq

namespace Config

/-- Probabilistic clauses, tables in memory, nothing is rounded. -/
def standard : Config := ⟨.problog, .memory, none⟩

instance : Inhabited Config := ⟨standard⟩

/-- Round a probability half up. With so many decimals that their scale is no finite double, it
stays as it is. -/
def round (c : Config) (p : Float) : Float :=
  match c.precision with
  | none => p
  | some digits =>
    let scale := Float.pow 10.0 (Float.ofNat digits.toNat)
    if scale.isFinite then (p * scale).round / scale else p

end Config

end ProbDatalog
