import ProbDatalog.Clause

/-!
# Errors

What makes an assertion or a query fail as a whole. That two literals do not unify, or that a
predicate has no clauses, is no error: it only means that there are no answers.

Some steps change a state and may fail. They are written in `ExceptT ε (StateM S)`, where a step
that fails leaves what it has changed.

* `bind_run`: one step after another.
-/

namespace ProbDatalog

/-- Why a store of tables cannot be opened, read, written or closed. -/
inductive StoreFault where
  /-- The store has been closed. -/
  | closed
  /-- A text in the store is no record of a table. -/
  | unreadable (reason : String)
  /-- The store keeps its tables below a directory that is not there. -/
  | noDirectory (directory : String)
  /-- The store gives a reason of its own. -/
  | refused (reason : String)
  deriving DecidableEq

/-- The text of a fault. -/
def StoreFault.message : StoreFault → String
  | closed => "subgoal storage failed: subgoal store is closed"
  | unreadable reason => "subgoal record serialization failed: " ++ reason
  | noDirectory directory => "subgoal storage failed: no such directory: " ++ directory
  | refused reason => "subgoal storage failed: " ++ reason

/-- Why an assertion or a query fails. -/
inductive Error where
  /-- A negated literal was reached with variables left open. -/
  | openNegation (literal : Literal)
  /-- A predicate name was used with another number of arguments before. -/
  | arity (literal : Literal) (expected : Nat)
  /-- An evaluable predicate was given a constant of the wrong kind. -/
  | kind (predicate : String) (argument : Term) (expected : String)
  /-- A fact has variables. -/
  | openFact (literal : Literal)
  /-- A variable of the head of a rule is bound by no positive literal of the body. -/
  | unboundHead (name : Variable) (clause : Clause)
  /-- The head of a clause is negated. -/
  | negatedHead (literal : Literal)
  /-- A number is not a probability. -/
  | improbable (value : Number)
  /-- The negation of a literal was reached while it was being decided. -/
  | unstratified (literal : Literal)
  /-- The tables could not be kept. -/
  | storage (fault : StoreFault)
  deriving DecidableEq

/-- The text of an error. -/
def Error.message : Error → String
  | openNegation l => "cannot negate non-ground literal `" ++ l.display ++ "`"
  | arity l expected =>
    "arity mismatch for `" ++ l.display ++ "`: `" ++ l.predicate ++ "` expects " ++
      toString expected ++ " arguments"
  | kind predicate argument expected =>
    "builtin `" ++ predicate ++ "` expects a " ++ expected ++ " but got `" ++ argument.display ++
      "`"
  | openFact l => "fact `" ++ l.display ++ "` must be ground"
  | unboundHead v c =>
    "variable `" ++ v.display ++ "` in the head of `" ++ c.display ++
      "` does not occur in a positive body literal"
  | negatedHead l => "clause head `" ++ l.display ++ "` cannot be negated"
  | improbable x => "probability " ++ x.display ++ " is outside of (0, 1]"
  | unstratified l => "negation of `" ++ l.display ++ "` depends on itself"
  | storage fault => fault.message

/-- **One step after another.** A step that fails ends both, and its changes stay. -/
theorem bind_run {ε S α β : Type} (x : ExceptT ε (StateM S) α) (f : α → ExceptT ε (StateM S) β)
    (s : S) : (x >>= f) s =
      match x s with
      | (.ok a, t) => f a t
      | (.error e, t) => (.error e, t) := by
  simp only [bind, ExceptT.bind, ExceptT.mk, StateT.bind]
  cases x s with
  | mk r t => cases r <;> rfl

/-- The number as a probability, or the error that it is none. -/
def Probability.ofNumber (x : Number) : Except Error Probability :=
  match Probability.ofNumber? x with
  | some p => .ok p
  | none => .error (.improbable x)

end ProbDatalog
