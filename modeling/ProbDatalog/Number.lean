/-!
# Numbers

A number is a binary64 double by its 64 bits, so that equality is equality of bits and every NaN is
a number of its own. `Ord` is the total order of IEEE 754, in which a negative zero comes before a
positive one and NaNs lie outside the infinities; `numericCompare?` is the order of the values.

* `rank_injective`: the total order tells any two numbers apart.
-/

namespace ProbDatalog

/-- A double, known by its bits. -/
structure Number where
  /-- Sign, biased exponent and fraction, from the highest bit down. -/
  bits : UInt64
  deriving DecidableEq, Hashable

namespace Number

/-- The highest bit. -/
def isNegative (x : Number) : Bool := 0x8000000000000000 ≤ x.bits.toNat

/-- The bits below the sign as a natural number. -/
def magnitude (x : Number) : Nat := x.bits.toNat % 0x8000000000000000

/-- The eleven bits of the exponent. -/
def exponentField (x : Number) : Nat := x.magnitude / 0x10000000000000

/-- The lowest 52 bits. -/
def fractionField (x : Number) : Nat := x.bits.toNat % 0x10000000000000

/-- Neither an infinity nor a NaN. -/
def isFinite (x : Number) : Bool := x.exponentField < 2047

/-- Not a number. -/
def isNaN (x : Number) : Bool := 0x7ff0000000000000 < x.magnitude

/-- A zero of either sign. -/
def isZero (x : Number) : Bool := x.magnitude = 0

/-- `m` and `q` with the absolute value `m * 2 ^ q`, for a finite number. -/
def scaled (x : Number) : Nat × Int :=
  if x.exponentField = 0 then (x.fractionField, -1074)
  else (0x10000000000000 + x.fractionField, x.exponentField - 1075)

/-- The place of a number in the total order. -/
def rank (x : Number) : Int :=
  if x.isNegative then -(x.magnitude : Int) - 1 else x.magnitude

instance : Ord Number := ⟨fun a b => compare a.rank b.rank⟩

/-- The place of a number in the order of values, which joins the two zeros. -/
def valueRank (x : Number) : Int :=
  if x.isNegative then -(x.magnitude : Int) else x.magnitude

/-- The order of the values; a NaN compares with nothing. -/
def numericCompare? (a b : Number) : Option Ordering :=
  if a.isNaN || b.isNaN then none else some (compare a.valueRank b.valueRank)

/-- The positive zero. -/
def zero : Number := ⟨0⟩

/-- The negative zero. -/
def negativeZero : Number := ⟨0x8000000000000000⟩

/-- The quiet NaN without payload. -/
def nan : Number := ⟨0x7ff8000000000000⟩

/-- The number one. -/
def one : Number := ⟨0x3ff0000000000000⟩

/-- A negative zero becomes the positive one; any other number stays. -/
def canonical (x : Number) : Number := if x = negativeZero then zero else x

/-- The double as the machine computes with it. -/
def toFloat (x : Number) : Float := Float.ofBits x.bits

/-- The number of a computed double. -/
def ofFloat (x : Float) : Number := ⟨x.toBits⟩

/-- Apply an operation on doubles. -/
def liftFloat (f : Float → Float → Float) (a b : Number) : Number :=
  ofFloat (f a.toFloat b.toFloat)

theorem bits_toNat (x : Number) :
    x.bits.toNat = (if x.isNegative then 0x8000000000000000 else 0) + x.magnitude := by
  have h := x.bits.toNat_lt
  unfold magnitude
  split
  next hx =>
    have : 0x8000000000000000 ≤ x.bits.toNat := of_decide_eq_true hx
    omega
  next hx =>
    have : ¬0x8000000000000000 ≤ x.bits.toNat := fun hle => hx (decide_eq_true hle)
    omega

/-- **The total order tells any two numbers apart.** -/
theorem rank_injective {a b : Number} (h : a.rank = b.rank) : a = b := by
  have ha := a.bits_toNat
  have hb := b.bits_toNat
  unfold rank at h
  have hn : a.bits.toNat = b.bits.toNat := by
    cases hsa : a.isNegative <;> cases hsb : b.isNegative <;>
      simp only [hsa, hsb, if_true, if_false, Bool.false_eq_true] at ha hb h <;> omega
  cases a
  cases b
  simpa [UInt64.toNat_inj] using hn

@[simp] theorem canonical_ne_negativeZero (x : Number) : x.canonical ≠ negativeZero := by
  unfold canonical
  split
  · decide
  · assumption

@[simp] theorem canonical_canonical (x : Number) : x.canonical.canonical = x.canonical := by
  simp [canonical.eq_def x.canonical]

end Number

end ProbDatalog
