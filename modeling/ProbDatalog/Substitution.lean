import ProbDatalog.Assoc
import ProbDatalog.Literal

/-!
# Substitutions and unification

A substitution binds variables to terms in the order in which the bindings were made. A bound
variable may be bound to another variable, so the value of a term is found at the end of a chain of
bindings. Unification extends a substitution until two literals have the same values; it binds only
variables that end a chain, and the value at the end of the other chain.
-/

namespace ProbDatalog

/-- Bindings of variables, oldest first. -/
structure Substitution where
  bindings : Assoc Variable Term
  deriving DecidableEq

namespace Substitution

/-- No bindings. -/
def empty : Substitution := ⟨Assoc.empty⟩

instance : Inhabited Substitution := ⟨empty⟩

/-- The number of bound variables. -/
def size (s : Substitution) : Nat := s.bindings.size

/-- Whether nothing is bound. -/
def isEmpty (s : Substitution) : Bool := s.size = 0

/-- The term that a variable is bound to, without following chains. -/
def get? (s : Substitution) (v : Variable) : Option Term := s.bindings.get? v

/-- Bind a variable; an old binding of it is overwritten. -/
def bind (s : Substitution) (v : Variable) (t : Term) : Substitution := ⟨s.bindings.insert v t⟩

/-- The bindings made one after the other. -/
def ofList (bindings : List (Variable × Term)) : Substitution := ⟨Assoc.ofList bindings⟩

/-- The bindings, oldest first. -/
def toList (s : Substitution) : List (Variable × Term) := s.bindings.entries

/-- Follow at most `steps` bindings. -/
def follow (s : Substitution) : Nat → Term → Term
  | 0, t => t
  | steps + 1, t =>
    match t with
    | .const c => .const c
    | .var v =>
      match s.get? v with
      | some next => s.follow steps next
      | none => .var v

/-- The end of the chain of bindings that starts at a term. Where no chain comes back to itself,
each passes every binding at most once. -/
def resolve (s : Substitution) (t : Term) : Term := s.follow s.size t

/-- Replace the arguments of a literal by their values. -/
def apply (s : Substitution) (l : Literal) : Literal := { l with terms := l.terms.map s.resolve }

/-- Make two terms equal: their values agree, or one of them is a variable that is then bound to
the other. There is no substitution where they are different constants. -/
def unifyTerms (s : Substitution) (left right : Term) : Option Substitution :=
  match s.resolve left, s.resolve right with
  | .const a, .const b => if a = b then some s else none
  | .var a, .var b => if a = b then some s else some (s.bind a (.var b))
  | .var a, .const b => some (s.bind a (.const b))
  | .const a, .var b => some (s.bind b (.const a))

/-- Make pairs of terms equal one after the other. The substitution holds what was bound before
the first clash, and the flag tells whether there was none. -/
def unifyPairs (s : Substitution) : List (Term × Term) → Bool × Substitution
  | [] => (true, s)
  | (left, right) :: rest =>
    match s.unifyTerms left right with
    | some s' => s'.unifyPairs rest
    | none => (false, s)

/-- Add the bindings of `other` one after the other, up to the first clash. -/
def merge (s other : Substitution) : Bool × Substitution :=
  s.unifyPairs (other.toList.map fun b => (.var b.1, b.2))

end Substitution

/-- Extend `base` until two literals of one predicate, arity and sign have the same arguments. -/
def Literal.unify? (left right : Literal) (base : Substitution) : Option Substitution :=
  if left.predicate = right.predicate ∧ left.arity = right.arity ∧ left.negated = right.negated then
    match base.unifyPairs (left.terms.zip right.terms) with
    | (true, s) => some s
    | (false, _) => none
  else none

end ProbDatalog
