import ProbDatalog.Substitution

/-!
# Call patterns

What a call of a literal has in common with every call that must have the same answers: the
predicate, the constants, and which arguments share a variable. Its variables are numbered in the
order of their first occurrence.
-/

namespace ProbDatalog

/-- A positive literal whose variables are the canonical ones. -/
structure CallPattern where
  literal : Literal
  deriving DecidableEq, Hashable

namespace CallPattern

/-- The canonical variable with a number. -/
def canonicalVariable (index : Nat) : Variable := ⟨"_" ++ toString index, 0⟩

/-- Replace the variables of a term by the canonical ones of their places in `vars`. -/
def canonicalTerm (vars : List Variable) : Term → Term
  | .const c => .const c
  | .var v => .var (canonicalVariable (vars.idxOf v))

/-- The call pattern of a literal or of its negation. -/
def of (l : Literal) : CallPattern :=
  ⟨.of l.predicate (l.terms.map (canonicalTerm l.vars.eraseDups))⟩

/-- The order of the literals. -/
def order (a b : CallPattern) : Ordering := compare a.literal b.literal

instance : Ord CallPattern := ⟨order⟩

/-- Whether the positive form of a literal is an instance of the pattern. -/
def covers (p : CallPattern) (fact : Literal) : Bool :=
  (p.literal.unify? fact.positive .empty).isSome

/-- The literal and its arity. -/
def display (p : CallPattern) : String := p.literal.display ++ "/" ++ toString p.literal.arity

end CallPattern

end ProbDatalog
