import ProbDatalog.Probability

/-!
# Arithmetic of probabilities

Probabilities are computed with in doubles. What is computed is best said of exact numbers, so the
computations work for any arithmetic that has the few operations of `Weight`.
-/

namespace ProbDatalog

/-- Numbers in which probabilities are computed. -/
class Weight (α : Type) extends Add α, Sub α, Mul α where
  /-- The probability of nothing. -/
  zero : α
  /-- The probability of everything. -/
  one : α
  /-- The value of a probability of a clause. -/
  ofProbability : Probability → α
  /-- The nearest value from zero to one. -/
  clamp : α → α

/-- Doubles, where every operation rounds. -/
instance : Weight Float where
  zero := 0.0
  one := 1.0
  ofProbability p := p.number.toFloat
  clamp x := if x < 0.0 then 0.0 else if 1.0 < x then 1.0 else x

/-- The exact value of a finite positive double. -/
def Number.exact (x : Number) : Rat :=
  mkRat (x.scaled.1 <<< x.scaled.2.toNat : Nat) (1 <<< (-x.scaled.2).toNat)

/-- Rational numbers, where nothing is rounded. -/
instance : Weight Rat where
  zero := 0
  one := 1
  ofProbability p := p.number.exact
  clamp x := if x < 0 then 0 else if 1 < x then 1 else x

end ProbDatalog
