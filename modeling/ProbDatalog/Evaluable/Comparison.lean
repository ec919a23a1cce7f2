import ProbDatalog.Evaluable

/-!
# Comparisons and the test of kinds

A comparison decides two constants. Numbers compare by value and strings by code points; constants
of different kinds are different and stand in no order. The test of kinds finds the name of the
kind of a constant.

* `isGround_of_comparison_accept`: a comparison accepts only constants.
-/

namespace ProbDatalog

/-- What a comparison asks of two constants. -/
inductive Relation where
  | less
  | greater
  | atMost
  | atLeast
  | equal
  | different
  deriving DecidableEq

/-- The order of two numbers or two strings. -/
def Constant.compare? : Constant → Constant → Option Ordering
  | .number a, .number b => a.numericCompare? b
  | .string a, .string b => some (compare a b)
  | _, _ => none

/-- Whether two constants stand in the relation. -/
def Relation.holds (r : Relation) (a b : Constant) : Bool :=
  match r with
  | less => a.compare? b = some .lt
  | greater => a.compare? b = some .gt
  | atMost => a.compare? b = some .lt || a.compare? b = some .eq
  | atLeast => a.compare? b = some .gt || a.compare? b = some .eq
  | equal => a = b
  | different => a ≠ b

namespace Evaluable

/-- `name(A, B)` accepts two constants in the relation. -/
def comparison (name : String) (r : Relation) : Evaluable where
  name
  arity := 2
  evaluate
    | [.const a, .const b] => .ok (.ofBool (r.holds a b))
    | _ => .ok .reject

/-- `is(Value, Kind)`: the second argument is the name of the kind of the first. -/
def kindTest : Evaluable where
  name := "is"
  arity := 2
  evaluate
    | [.const c, kind] => do
      let _ ← stringInput "is" kind
      return settle kind (.string c.kind.name)
    | _ => .ok .reject

/-- A comparison accepts only constants. -/
theorem isGround_of_comparison_accept {name : String} {r : Relation} {args : List Term}
    (h : (comparison name r).evaluate args = .ok .accept) :
    ∀ t ∈ args, t.isGround = true := by
  simp only [comparison] at h
  split at h
  · simp [Term.isGround]
  · cases h

end Evaluable

end ProbDatalog
