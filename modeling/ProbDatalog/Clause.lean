import ProbDatalog.Literal
import ProbDatalog.Probability

/-!
# Clauses

A fact or a rule, annotated with the probability that it takes effect. Clauses are told apart by
the order in which they were asserted, so the same clause asserted twice is two causes of its head.
-/

namespace ProbDatalog

/-- The place of a clause in the order of assertion. -/
structure ClauseId where
  index : Nat
  deriving DecidableEq, Hashable

namespace ClauseId

instance : Ord ClauseId := ⟨fun a b => compare a.index b.index⟩

/-- The place after a hash sign. -/
def display (id : ClauseId) : String := "#" ++ toString id.index

end ClauseId

/-- The head holds where the whole body does, with the given probability. -/
structure Clause where
  head : Literal
  body : List Literal
  probability : Probability
  deriving DecidableEq, Hashable

namespace Clause

/-- First by head, then by body, then by probability. -/
def order (a b : Clause) : Ordering :=
  (compare a.head b.head).then
    ((compare a.body b.body).then (compare a.probability b.probability))

instance : Ord Clause := ⟨order⟩

/-- Whether there is nothing to show before the head holds. -/
def isFact (c : Clause) : Bool := c.body.isEmpty

/-- Whether the clause may fail to take effect. -/
def isProbabilistic (c : Clause) : Bool := !c.probability.isCertain

/-- Move all variables to one scope. -/
def rescoped (c : Clause) (scope : UInt32) : Clause :=
  { c with head := c.head.rescoped scope, body := c.body.map (·.rescoped scope) }

/-- The variables that a positive literal of the body binds. -/
def boundVars (c : Clause) : List Variable :=
  (c.body.filter (!·.negated)).flatMap Literal.vars

/-- The clause with a full stop; a probability below one is written in front. -/
def display (c : Clause) : String :=
  let annotation := if c.isProbabilistic then c.probability.display ++ "::" else ""
  let body := if c.isFact then "" else " :- " ++ ", ".intercalate (c.body.map Literal.display)
  annotation ++ c.head.display ++ body ++ "."

end Clause

end ProbDatalog
