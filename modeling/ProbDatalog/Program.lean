import ProbDatalog.Assoc
import ProbDatalog.Error

/-!
# Programs

The clauses of a program in the order of assertion, with an index by head predicate and arity and
the arity of every predicate name that occurs. Asserting a clause changes these one after the other,
once everything that may fail has been checked.
-/

namespace ProbDatalog

/-- Heads are positive, facts are ground, and every variable of the head of a rule occurs in a
positive literal of the body. -/
def Clause.validate (c : Clause) : Except Error Unit :=
  if c.head.negated then .error (.negatedHead c.head)
  else if c.isFact then
    if c.head.isGround then .ok () else .error (.openFact c.head)
  else
    match c.head.vars.find? (· ∉ c.boundVars) with
    | some v => .error (.unboundHead v c)
    | none => .ok ()

/-- Asserted clauses with their indexes. -/
structure Program where
  /-- The clauses; a clause is found at the index of its id. -/
  clauses : Array Clause
  /-- The ids of the clauses of each predicate and arity, in the order of assertion. -/
  buckets : Assoc (String × Nat) (List ClauseId)
  /-- The arity of each predicate name, fixed by its first use in a head or a body. -/
  arities : Assoc String Nat

namespace Program

/-- The program without clauses. -/
def empty : Program := ⟨#[], .empty, .empty⟩

instance : Inhabited Program := ⟨empty⟩

/-- Steps that change a program. A step that fails leaves what it has changed. -/
abbrev Asserting : Type → Type := ExceptT Error (StateM Program)

/-- The names that literals use for the first time, with their arities, in addition to those that
are pending; fail at the first literal whose name is known or pending with another arity. -/
def pendingArities (known pending : Assoc String Nat) :
    List Literal → Except Error (Assoc String Nat)
  | [] => .ok pending
  | l :: rest =>
    match (known.get? l.predicate).or (pending.get? l.predicate) with
    | some expected =>
      if expected = l.arity then pendingArities known pending rest else .error (.arity l expected)
    | none => pendingArities known (pending.insert l.predicate l.arity) rest

/-- Append a clause. It has to be well formed, and must not use a predicate name with two
arities. -/
def append (c : Clause) : Asserting ClauseId := do
  MonadExcept.ofExcept c.validate
  let pending ← MonadExcept.ofExcept
    (pendingArities (← get).arities .empty (c.head :: c.body))
  modify fun p => { p with arities := p.arities.extend pending.entries }
  let id : ClauseId := ⟨(← get).clauses.size⟩
  modify fun p => { p with
    buckets := p.buckets.alter (c.head.predicate, c.head.arity) fun ids => ids.getD [] ++ [id] }
  modify fun p => { p with clauses := p.clauses.push c }
  return id

/-- What appending a clause yields, and the program that it leaves. -/
def assert (p : Program) (c : Clause) : Except Error ClauseId × Program := append c p

/-- Append clauses in turn up to the first error; the clauses before it stay. -/
def assertAll (p : Program) (cs : List Clause) : Except Error (List ClauseId) × Program :=
  cs.mapM append p

/-- The clause with an id. -/
def clause? (p : Program) (id : ClauseId) : Option Clause := p.clauses[id.index]?

theorem mem_clauses_of_clause? {p : Program} {id : ClauseId} {c : Clause}
    (h : p.clause? id = some c) : c ∈ p.clauses := Array.mem_of_getElem? h

/-- The clauses whose head has the predicate and arity, in the order of assertion. -/
def clausesOf (p : Program) (predicate : String) (arity : Nat) : List (ClauseId × Clause) :=
  ((p.buckets.get? (predicate, arity)).getD []).filterMap fun id =>
    (p.clause? id).map fun c => (id, c)

/-- The clauses that a call of the literal has to try. -/
def candidates (p : Program) (l : Literal) : List (ClauseId × Clause) :=
  p.clausesOf l.predicate l.arity

/-- The arity of a predicate name. -/
def arity? (p : Program) (predicate : String) : Option Nat := p.arities.get? predicate

/-- All clauses with their ids, in the order of assertion. -/
def toList (p : Program) : List (ClauseId × Clause) :=
  p.clauses.toList.zipIdx.map fun c => (⟨c.2⟩, c.1)

/-- The clauses without a body. -/
def facts (p : Program) : List Clause := p.clauses.toList.filter Clause.isFact

/-- The clauses with a body. -/
def rules (p : Program) : List Clause := p.clauses.toList.filter (!·.isFact)

/-- The predicates with clauses and their arities, in the order of their first clauses. -/
def predicates (p : Program) : List (String × Nat) := p.buckets.keys

/-- The number of clauses. -/
def size (p : Program) : Nat := p.clauses.size

end Program

end ProbDatalog
