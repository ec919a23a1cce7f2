import ProbDatalog.Formula.Measure
import ProbDatalog.Lineage

/-!
# Marginal probabilities

The probability that a literal holds, given all proofs that it may rest on, where every
probabilistic proof takes effect independently of the others. Nothing is known where a fact rests
on its own negation.
-/

namespace ProbDatalog

/-- The formula with variables numbered in the order in which they were met. -/
def Lineage.numbered (l : Lineage) : Formula := l.formula.rename l.met.idxOf

namespace ProofSet

/-- The probabilities of the proofs with the given ranks. -/
def weights (α : Type) [Weight α] (s : ProofSet) (ranks : List Nat) : Array α :=
  let proofs := s.toList.toArray
  let weights := ranks.filterMap fun rank =>
    proofs[rank]?.map fun p => Weight.ofProbability p.probability
  weights.toArray

/-- The probability of a literal. -/
def probability? (α : Type) [Weight α] (s : ProofSet) (l : Literal) : Option α := do
  let lineage ← s.lineage? l
  let weights := s.weights α lineage.met
  return Weight.clamp (lineage.numbered.measure fun v => weights.getD v Weight.one)

/-- Whether a literal holds whichever proofs take effect. -/
def isCertain? (s : ProofSet) (l : Literal) : Option Bool :=
  (s.lineage? l).map (·.formula.isValid)

/-- The proofs that the search for derivations of the literal without detours comes across. All that
such derivations use is among them. -/
def support? (s : ProofSet) (l : Literal) : Option ProofSet := do
  let lineage ← s.lineage? l
  return ⟨(s.toList.zipIdx.filter fun p => lineage.support.contains p.2).map Prod.fst⟩

end ProofSet

end ProbDatalog
