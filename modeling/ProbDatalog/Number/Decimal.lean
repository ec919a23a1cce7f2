import ProbDatalog.Number

/-!
# Shortest decimal text of a number

The doubles round to nearest, ties to even, so the reals that read back as a given double form an
interval, closed exactly if the significand is even. Its shortest decimal has the greatest power of
ten that divides into the interval; of two such decimals the nearer one is written, with all digits
and without an exponent.
-/

namespace ProbDatalog.Number

/-- The decimal `digits * 10 ^ power`. -/
structure Decimal where
  digits : Nat
  power : Int
  deriving DecidableEq

/-- The reals that read back as one double, in units of `2 ^ unit`. -/
structure Interval where
  low : Nat
  value : Nat
  high : Nat
  closed : Bool
  unit : Int

/-- The interval of a positive finite double. Below a power of two the doubles lie twice as
dense. -/
def interval (x : Number) : Interval :=
  let (m, q) := x.scaled
  let low := if x.fractionField = 0 && 1 < x.exponentField then 4 * m - 1 else 4 * m - 2
  ⟨low, 4 * m, 4 * m + 2, m % 2 = 0, q - 2⟩

/-- `a` and `b` with the ratio of `2 ^ unit` to `10 ^ power`. -/
def unitRatio (unit power : Int) : Nat × Nat :=
  (Nat.pow 10 (-power).toNat <<< unit.toNat, Nat.pow 10 power.toNat <<< (-unit).toNat)

/-- Whether `digits * 10 ^ power` lies in the interval. -/
def Interval.admits (i : Interval) (power : Int) (digits : Nat) : Bool :=
  let (a, b) := unitRatio i.unit power
  if i.closed then i.low * a ≤ digits * b && digits * b ≤ i.high * a
  else i.low * a < digits * b && digits * b < i.high * a

/-- The decimal with the given power of ten that lies in the interval, the nearer of two. -/
def Interval.decimalAt? (i : Interval) (power : Int) : Option Nat :=
  let (a, b) := unitRatio i.unit power
  let below := i.value * a / b
  match i.admits power below, i.admits power (below + 1) with
  | true, true => if 2 * (i.value * a - below * b) < b then some below else some (below + 1)
  | true, false => some below
  | false, true => some (below + 1)
  | false, false => none

/-- The first hit on the way down from a power of ten. Seventeen digits always suffice, so the
search is short; at its end the digits below the value are cut off. -/
def Interval.search (i : Interval) : Nat → Int → Decimal
  | 0, power =>
    let (a, b) := unitRatio i.unit power
    ⟨i.value * a / b, power⟩
  | steps + 1, power =>
    match i.decimalAt? power with
    | some digits => ⟨digits, power⟩
    | none => i.search steps (power - 1)

/-- A power of ten above every number of the interval. -/
def Interval.ceiling (i : Interval) : Int :=
  ((i.high.log2 : Int) + 1 + i.unit) * 30103 / 100000 + 1

/-- The shortest decimal that reads back as the absolute value of a finite number. -/
def shortest (x : Number) : Decimal :=
  if x.isZero then ⟨0, 0⟩ else x.interval.search 24 x.interval.ceiling

/-- The digits of a decimal with a point where one is needed, and no exponent. -/
def Decimal.positional (d : Decimal) : String :=
  let digits := Nat.toDigits 10 d.digits
  if 0 ≤ d.power then String.ofList (digits ++ List.replicate d.power.toNat '0')
  else
    let places := (-d.power).toNat
    let padded := List.replicate (places + 1 - digits.length) '0' ++ digits
    let whole := padded.length - places
    String.ofList (padded.take whole ++ '.' :: padded.drop whole)

/-- The text of a number: the shortest decimal that reads back, or the name of a value that is not
finite. -/
def display (x : Number) : String :=
  if x.isNaN then "NaN"
  else
    let sign := if x.isNegative then "-" else ""
    if x.isFinite then sign ++ x.shortest.positional else sign ++ "inf"

end ProbDatalog.Number
