import ProbDatalog.Formula
import ProbDatalog.Remember
import ProbDatalog.Weight

/-!
# The probability of a formula

The variables are independent and each is true with a probability of its own. Cubes that share no
variable are independent, so the probability that none of them holds is a product. A formula whose
cubes share variables is split on one of them, which leaves two cases that exclude each other.
-/

namespace ProbDatalog.Formula

/-- A variable that occurs at least twice and at least as often as any other; of several such
variables the first. -/
def sharedVariable? (f : Formula) : Option Nat :=
  let occurrences := f.occurrences
  let counts := f.vars.map fun v => (v, occurrences.count v)
  let step (best : Option (Nat × Nat)) (v : Nat × Nat) : Option (Nat × Nat) :=
    match best with
    | none => if 1 < v.2 then some v else none
    | some b => if b.2 < v.2 then some v else some b
  (counts.foldl step none).map Prod.fst

variable {α : Type} [Weight α] (weight : Nat → α)

/-- The probability of a variable or of its negation. -/
def signedMeasure (x : SignedVar) : α :=
  if x.positive then weight x.index else Weight.one - weight x.index

/-- The probability of a cube. -/
def cubeMeasure (c : Cube) : α := c.foldl (fun p x => p * signedMeasure weight x) Weight.one

/-- The probability that one of several independent cubes holds. -/
def independentMeasure (cubes : List Cube) : α :=
  Weight.one - cubes.foldl (fun p c => p * (Weight.one - cubeMeasure weight c)) Weight.one

/-- The probability of a formula, split on at most `splits` variables along each branch. -/
def measureBy {m : Type → Type} [Monad m] (keep : Formula → m α → m α) : Nat → Formula → m α
  | splits, f =>
    if f.isFalse then pure Weight.zero
    else if f.isTrue then pure Weight.one
    else keep f <|
      match splits, f.sharedVariable? with
      | splits + 1, some v => do
        let whenTrue ← measureBy keep splits (f.restrict v true)
        let whenFalse ← measureBy keep splits (f.restrict v false)
        pure (weight v * whenTrue + (Weight.one - weight v) * whenFalse)
      | _, _ => pure (independentMeasure weight f.cubes)

/-- The probability of a formula. Each split removes a variable, so there are not more splits
along a branch than variables. -/
def measure (f : Formula) : α :=
  (measureBy (m := Remember Formula α Id) weight remember f.vars.length f).fresh.run

end ProbDatalog.Formula
