import ProbDatalog.Evaluable
import ProbDatalog.Program

/-!
# Theories

A program together with its evaluable predicates and with what its clauses mean.
-/

namespace ProbDatalog

/-- What the clauses of a program mean. -/
inductive Mode where
  /-- Every clause takes effect and what is derived is certain; no proofs are kept. -/
  | datalog
  /-- Clauses take effect with their probabilities; proofs are kept. -/
  | problog
  deriving DecidableEq

/-- What a search works from. -/
structure Theory where
  program : Program
  registry : Registry
  mode : Mode

end ProbDatalog
