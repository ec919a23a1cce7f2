import ProbDatalog.Evaluable

/-!
# Functions as predicates

A function of `n` inputs is a predicate of `n + 1` arguments, the result first. All inputs have to
be given; the result is bound where it is open and compared where it is given.
-/

namespace ProbDatalog.Evaluable

/-- `name(Result, A, B)` for a partial operation on numbers. A result that is not finite counts as
undefined, and a call whose result is undefined is rejected. Both inputs have to be numbers, even
where the other one is open. -/
def arithmetic (name : String) (operation : Number → Number → Option Number) : Evaluable where
  name
  arity := 3
  evaluate
    | [result, left, right] => do
      let left ← numberInput name left
      let right ← numberInput name right
      match left, right with
      | some a, some b =>
        match operation a b with
        | some x => return if x.isFinite then settle result (.number x.canonical) else .reject
        | none => return .reject
      | _, _ => return .reject
    | _ => .ok .reject

/-- `name(Result, A₁, …, Aₙ)` for a function of `inputs` strings. -/
def stringFunction (name : String) (inputs : Nat) (function : List String → Constant) :
    Evaluable where
  name
  arity := inputs + 1
  evaluate
    | result :: arguments => do
      match ← stringInputs name arguments with
      | some strings => return settle result (function strings)
      | none => return .reject
    | [] => .ok .reject

end ProbDatalog.Evaluable
