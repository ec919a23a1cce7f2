import ProbDatalog.Term

/-!
# Literals

A predicate applied to terms, possibly negated. A ground positive literal is a fact.
-/

namespace ProbDatalog

/-- A predicate name with its arguments, and whether it is negated. -/
structure Literal where
  predicate : String
  terms : List Term
  negated : Bool
  deriving DecidableEq, Hashable

namespace Literal

/-- First by predicate, then by the arguments from left to right, then positive before negated. -/
def order (a b : Literal) : Ordering :=
  (compare a.predicate b.predicate).then
    ((compare a.terms b.terms).then (compare a.negated b.negated))

instance : Ord Literal := ⟨order⟩

/-- The positive literal of a predicate and its arguments. -/
def of (predicate : String) (terms : List Term) : Literal := ⟨predicate, terms, false⟩

/-- The literal with its sign changed. -/
def negate (l : Literal) : Literal := { l with negated := !l.negated }

/-- The literal without negation. -/
def positive (l : Literal) : Literal := { l with negated := false }

/-- The number of arguments. -/
def arity (l : Literal) : Nat := l.terms.length

/-- Whether all arguments are constants. -/
def isGround (l : Literal) : Bool := l.terms.all Term.isGround

/-- The variables from left to right, as often as they occur. -/
def vars (l : Literal) : List Variable := l.terms.filterMap Term.var?

/-- Move all variables to one scope. -/
def rescoped (l : Literal) (scope : UInt32) : Literal :=
  { l with terms := l.terms.map (·.rescoped scope) }

/-- The predicate with its arguments in parentheses; a negated literal starts with a tilde. -/
def display (l : Literal) : String :=
  (if l.negated then "~" else "") ++ l.predicate ++ "(" ++
    ", ".intercalate (l.terms.map Term.display) ++ ")"

@[simp] theorem positive_positive (l : Literal) : l.positive.positive = l.positive := rfl

theorem positive_eq_self {l : Literal} (h : l.negated = false) : l.positive = l := by
  cases l
  simp_all [positive]

theorem positive_negate {l : Literal} (h : l.negated = false) : l.negate.positive = l :=
  positive_eq_self h

theorem isGround_iff (l : Literal) : l.isGround = true ↔ l.vars = [] := by
  unfold isGround vars
  induction l.terms with
  | nil => simp
  | cons t rest ih => cases t <;> simp_all [Term.isGround, Term.var?, List.filterMap_cons]

end Literal

end ProbDatalog
