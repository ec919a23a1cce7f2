import ProbDatalog.Assoc
import ProbDatalog.Error
import ProbDatalog.Substitution

/-!
# Evaluable predicates

Predicates that are computed instead of looked up. One is given the arguments of a call with all
known bindings applied. It rejects the call, accepts it, or accepts it under bindings of arguments
that are still open. An open input is rejected, which ends one branch of the search; a constant of
the wrong kind is an error.
-/

namespace ProbDatalog

/-- What an evaluable predicate makes of a call. -/
inductive Outcome where
  /-- The call does not hold. -/
  | reject
  /-- The call holds as it is. -/
  | accept
  /-- The call holds once the bindings are added. -/
  | bind (bindings : Substitution)
  deriving DecidableEq

/-- Accept or reject. -/
def Outcome.ofBool (holds : Bool) : Outcome := if holds then accept else reject

/-- A predicate with a name, a number of arguments and a way to decide calls. -/
structure Evaluable where
  name : String
  arity : Nat
  /-- The outcome of a call with `arity` arguments. -/
  evaluate : List Term → Except Error Outcome

namespace Evaluable

/-- Bind an open result to its value; compare a result that is given. -/
def settle (result : Term) (value : Constant) : Outcome :=
  match result with
  | .var v => .bind (Substitution.empty.bind v (.const value))
  | .const given => .ofBool (given = value)

/-- The number that an argument is, or none while it is open. -/
def numberInput (name : String) (argument : Term) : Except Error (Option Number) :=
  match argument with
  | .var _ => .ok none
  | .const (.number x) => .ok (some x)
  | .const _ => .error (.kind name argument Kind.number.name)

/-- The string that an argument is, or none while it is open. -/
def stringInput (name : String) (argument : Term) : Except Error (Option String) :=
  match argument with
  | .var _ => .ok none
  | .const (.string s) => .ok (some s)
  | .const _ => .error (.kind name argument Kind.string.name)

/-- The strings that all arguments are. The first argument that is open ends the reading, before
the kinds of the arguments after it are seen. -/
def stringInputs (name : String) : List Term → Except Error (Option (List String))
  | [] => .ok (some [])
  | argument :: rest => do
    match ← stringInput name argument with
    | none => return none
    | some s => return (← stringInputs name rest).map (s :: ·)

end Evaluable

/-- Evaluable predicates by name, in the order of registration. -/
structure Registry where
  members : Assoc String Evaluable

namespace Registry

/-- Nothing is evaluable. -/
def empty : Registry := ⟨.empty⟩

/-- Add a predicate; one of the same name gives its place up to it. -/
def register (r : Registry) (e : Evaluable) : Registry := ⟨r.members.insert e.name e⟩

/-- The predicate with a name. -/
def get? (r : Registry) (name : String) : Option Evaluable := r.members.get? name

/-- Whether a name is evaluable. -/
def contains (r : Registry) (name : String) : Bool := r.members.contains name

/-- The names in the order of registration. -/
def names (r : Registry) : List String := r.members.keys

/-- The number of predicates. -/
def size (r : Registry) : Nat := r.members.size

/-- The predicates registered one after the other. -/
def ofList (members : List Evaluable) : Registry := members.foldl register empty

/-- The evaluable predicate that a literal calls, if its name belongs to one. A call with another
number of arguments is an error. -/
def resolve (r : Registry) (l : Literal) : Except Error (Option Evaluable) :=
  match r.get? l.predicate with
  | none => .ok none
  | some e => if e.arity = l.arity then .ok (some e) else .error (.arity l e.arity)

end Registry

end ProbDatalog
