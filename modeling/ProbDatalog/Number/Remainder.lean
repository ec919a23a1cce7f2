import ProbDatalog.Number

/-!
# Exact remainders

The remainder of two doubles is again a double and can be computed without rounding: both are
brought to one power of two and divided as natural numbers.

* `remainder`: the sign of the dividend.
* `euclideanRemainder`: never negative, up to one rounded addition.
-/

namespace ProbDatalog.Number

/-- The double `m * 2 ^ q` with the given sign, for a product that some double has exactly; bits
that no double holds are cut off. -/
def ofScaled (negative : Bool) (m : Nat) (q : Int) : Number :=
  let signBit : Nat := if negative then 0x8000000000000000 else 0
  if m = 0 then ⟨signBit.toUInt64⟩
  else
    let shift : Int := max ((m.log2 : Int) - 52) (-1074 - q)
    let significand := if 0 ≤ shift then m >>> shift.toNat else m <<< (-shift).toNat
    let field := (q + shift + 1074).toNat
    ⟨(signBit + field * 0x10000000000000 + significand).toUInt64⟩

/-- The part of `a` that whole multiples of `b` leave, with the sign of `a`. There is none where
`a` is not finite or `b` is zero. -/
def remainder (a b : Number) : Number :=
  if a.isNaN || b.isNaN || !a.isFinite || b.isZero then nan
  else if !b.isFinite then a
  else
    let (m, q) := a.scaled
    let (n, r) := b.scaled
    let unit := min q r
    ofScaled a.isNegative ((m <<< (q - unit).toNat) % (n <<< (r - unit).toNat)) unit

/-- The remainder, with the absolute value of `b` added where it is below zero. -/
def euclideanRemainder (a b : Number) : Number :=
  let r := a.remainder b
  if r.isNegative && !r.isZero && !r.isNaN then ofFloat (r.toFloat + b.toFloat.abs) else r

end ProbDatalog.Number
