import ProbDatalog.Clause
import ProbDatalog.Sorted

/-!
# Proofs

A proof is a ground instance of a clause: it shows its head from its premises. Proofs are ordered
by what they say before the clause they come from, so that a set of proofs lists them in the same
order whatever the order of assertion.
-/

namespace ProbDatalog

/-- A literal of the body of a ground instance. -/
inductive Premise where
  /-- A literal that clauses answer, possibly negated. -/
  | relational (literal : Literal)
  /-- An evaluable call that was accepted. -/
  | evaluable (literal : Literal)
  deriving DecidableEq, Hashable

namespace Premise

/-- The literal of a premise. -/
def literal : Premise → Literal
  | relational l => l
  | evaluable l => l

/-- Relational premises come before evaluable ones. -/
def order : Premise → Premise → Ordering
  | relational a, relational b => compare a b
  | relational _, evaluable _ => .lt
  | evaluable _, relational _ => .gt
  | evaluable a, evaluable b => compare a b

instance : Ord Premise := ⟨order⟩

/-- The positive form of the fact that a relational premise rests on. -/
def dependency? : Premise → Option Literal
  | relational l => some l.positive
  | evaluable _ => none

end Premise

/-- A ground instance of a clause. -/
structure Proof where
  /-- The fact that is shown. -/
  head : Literal
  /-- The premises from left to right. -/
  body : List Premise
  /-- The probability of the clause. -/
  probability : Probability
  /-- The clause. -/
  clause : ClauseId
  deriving DecidableEq, Hashable

namespace Proof

/-- First by head, then by premises, by probability and by clause. -/
def order (a b : Proof) : Ordering :=
  (compare a.head b.head).then
    ((compare a.body b.body).then
      ((compare a.probability b.probability).then (compare a.clause b.clause)))

instance : Ord Proof := ⟨order⟩

/-- The ground clause. -/
def clauseInstance (p : Proof) : Clause := ⟨p.head, p.body.map Premise.literal, p.probability⟩

/-- Whether the clause may fail to take effect. -/
def isProbabilistic (p : Proof) : Bool := !p.probability.isCertain

/-- The facts that the proof rests on, those of negated premises in positive form. -/
def dependencies (p : Proof) : List Literal := p.body.filterMap Premise.dependency?

/-- The ground clause and the id of the clause. -/
def display (p : Proof) : String := p.clauseInstance.display ++ " " ++ p.clause.display

end Proof

/-- A set of proofs in ascending order, so that the proofs of one fact stand together. -/
structure ProofSet where
  toList : List Proof
  deriving DecidableEq

namespace ProofSet

/-- No proofs. -/
def empty : ProofSet := ⟨[]⟩

instance : Inhabited ProofSet := ⟨empty⟩

/-- Add a proof. -/
def insert (s : ProofSet) (p : Proof) : ProofSet := ⟨Sorted.insert p s.toList⟩

/-- Add several proofs. -/
def insertAll (s : ProofSet) (ps : List Proof) : ProofSet := ps.foldl insert s

/-- The set of the listed proofs. -/
def ofList (ps : List Proof) : ProofSet := empty.insertAll ps

/-- Whether the set holds the proof. -/
def contains (s : ProofSet) (p : Proof) : Bool := s.toList.contains p

/-- The proofs of a fact in order. -/
def proofsOf (s : ProofSet) (fact : Literal) : List Proof := s.toList.filter (·.head = fact)

/-- Whether a fact has a proof. -/
def proves (s : ProofSet) (fact : Literal) : Bool := s.toList.any (·.head = fact)

/-- The facts with proofs, in order. -/
def facts (s : ProofSet) : List Literal := (s.toList.map Proof.head).eraseDups

/-- The number of proofs. -/
def size (s : ProofSet) : Nat := s.toList.length

/-- Whether there is no proof. -/
def isEmpty (s : ProofSet) : Bool := s.toList.isEmpty

end ProofSet

end ProbDatalog
