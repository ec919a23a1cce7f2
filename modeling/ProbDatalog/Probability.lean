import ProbDatalog.Number.Decimal

/-!
# Probabilities of clauses

A probability is a double above zero and at most one. On these doubles the order of the values is
the order of the bits.

* `ofNumber?_eq_some_iff`: which numbers are probabilities.
-/

namespace ProbDatalog

/-- A double above zero and at most one. -/
structure Probability where
  number : Number
  pos : 0 < number.bits.toNat
  le_one : number.bits.toNat ≤ Number.one.bits.toNat
  deriving DecidableEq, Hashable

namespace Probability

/-- The number as a probability, if it lies above zero and at most at one. -/
def ofNumber? (x : Number) : Option Probability :=
  if h : 0 < x.bits.toNat ∧ x.bits.toNat ≤ Number.one.bits.toNat then some ⟨x, h.1, h.2⟩ else none

/-- The probability of what always holds. -/
def certain : Probability := ⟨Number.one, by decide, by decide⟩

/-- Whether the probability is one. -/
def isCertain (p : Probability) : Bool := p.number = Number.one

/-- The order of the values. -/
def order (a b : Probability) : Ordering := compare a.number b.number

instance : Ord Probability := ⟨order⟩

/-- The text of the number. -/
def display (p : Probability) : String := p.number.display

theorem ofNumber?_eq_some_iff (x : Number) (p : Probability) :
    ofNumber? x = some p ↔ p.number = x := by
  unfold ofNumber?
  constructor
  · intro h
    split at h
    · cases h
      rfl
    · cases h
  · intro h
    subst h
    rw [dif_pos ⟨p.pos, p.le_one⟩]

end Probability

end ProbDatalog
