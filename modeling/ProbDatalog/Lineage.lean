import ProbDatalog.Formula
import ProbDatalog.Proof
import ProbDatalog.Remember

/-!
# Lineage

The lineage of a fact is the formula that says which probabilistic proofs have to take effect for
the fact to hold. Its variables are the ranks of proofs in their set. A derivation that comes back
to a fact on its way shows nothing new, so such derivations are cut off. A negated premise is
decided on its own, from the start; where a fact rests on its own negation there is no lineage.

Beside the formula, a lineage tells in which order probabilistic proofs were met, and which proofs
turned out to be possible.
-/

namespace ProbDatalog

/-- What is known about the truth of a literal. -/
structure Lineage where
  /-- When the literal holds. -/
  formula : Formula
  /-- The probabilistic proofs in the order in which they were met. -/
  met : List Nat
  /-- The proofs whose premises are not impossible, in ascending order. -/
  support : List Nat
  deriving DecidableEq

namespace Lineage

/-- The lineage of what never holds. -/
def falsity : Lineage := ⟨.falsity, [], []⟩

/-- The lineage of what always holds. -/
def truth : Lineage := ⟨.truth, [], []⟩

/-- The lineage of a probabilistic proof without premises. -/
def ofVariable (rank : Nat) : Lineage := ⟨.literal ⟨rank, true⟩, [rank], []⟩

/-- Add what was met on the way to another formula. -/
def meeting (l other : Lineage) : Lineage :=
  { l with
    met := l.met ++ other.met.filter (· ∉ l.met)
    support := Sorted.union l.support other.support }

/-- The lineage of a conjunction. -/
def and (l other : Lineage) : Lineage :=
  { l.meeting other with formula := l.formula.and other.formula }

/-- Add a proof with the lineage of its premises to the lineage of its head. -/
def orProof (l : Lineage) (rank : Nat) (body : Lineage) : Lineage :=
  let l := l.meeting body
  if body.formula.isFalse then l
  else { l with formula := l.formula.or body.formula, support := Sorted.insert rank l.support }

/-- The lineage of the negation. -/
def not (l : Lineage) : Lineage := { l with formula := l.formula.not }

end Lineage

namespace ProofSet

/-- The proofs of a fact with their ranks. -/
def rankedProofsOf (s : ProofSet) (fact : Literal) : List (Nat × Proof) :=
  (s.toList.zipIdx.filter (·.1.head = fact)).map fun p => (p.2, p.1)

variable {m : Type → Type} [Monad m]

/-- The conjunction of a lineage with the relational premises from left to right. Nothing is asked
once the formula is false. -/
def premisesLineage (ask : Literal → m Lineage) : Lineage → List Premise → m Lineage
  | l, [] => pure l
  | l, .evaluable _ :: rest => premisesLineage ask l rest
  | l, .relational q :: rest => do
    let l := l.and (← ask q)
    if l.formula.isFalse then pure l else premisesLineage ask l rest

/-- The disjunction of a lineage with ranked proofs. -/
def proofsLineage (ask : Literal → m Lineage) : Lineage → List (Nat × Proof) → m Lineage
  | l, [] => pure l
  | l, (rank, p) :: rest => do
    let start := if p.isProbabilistic then Lineage.ofVariable rank else Lineage.truth
    let body ← premisesLineage ask start p.body
    proofsLineage ask (l.orProof rank body) rest

/-- The facts that a derivation came through, and the fact that it has come to. -/
abbrev Goal := List Literal × Literal

/-- First by the fact that a derivation has come to, then by the facts that it came through. -/
def Goal.order (a b : Goal) : Ordering := (compare a.2 b.2).then (compare a.1 b.1)

instance : Ord Goal := ⟨Goal.order⟩

/-- The lineage of a fact by derivations that avoid the facts of `path` and use at most `room`
facts along each branch. -/
def factLineage (s : ProofSet) (keep : Goal → m Lineage → m Lineage)
    (askNegated : Literal → m Lineage) : Nat → List Literal → Literal → m Lineage
  | 0, _, _ => pure .falsity
  | room + 1, path, fact => keep (path, fact) <|
    let path := Sorted.insert fact path
    let ask (q : Literal) : m Lineage :=
      if q.negated then askNegated q
      else if s.proves q && !path.contains q then factLineage s keep askNegated room path q
      else pure .falsity
    proofsLineage ask .falsity (s.rankedProofsOf fact)

/-- The lineage of a literal, with at most `depth` negations inside each other. -/
def literalLineage (s : ProofSet) (keep : Goal → m Lineage → m Lineage) (halt : m Lineage)
    (room : Nat) : Nat → Literal → m Lineage
  | 0, _ => halt
  | depth + 1, l => do
    let fact := l.positive
    let lineage ←
      if s.proves fact then
        factLineage s keep (literalLineage s keep halt room depth) room [] fact
      else pure .falsity
    pure (if l.negated then lineage.not else lineage)

/-- The lineage of a literal. There is none where a fact that it rests on rests on its own
negation: only then are negations nested deeper than there are facts. -/
def lineage? (s : ProofSet) (l : Literal) : Option Lineage :=
  let room := s.facts.length
  (literalLineage (m := Remember Goal Lineage Option) s remember (fun _ => none) room (room + 2)
    l).fresh

end ProofSet

end ProbDatalog
