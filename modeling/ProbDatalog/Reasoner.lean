import ProbDatalog.Config
import ProbDatalog.Evaluable.Standard
import ProbDatalog.Search.Query

/-!
# Reasoners

A program with its evaluable predicates and settings, ready to be queried. Every query runs a
search of its own on tables of its own, which are given up when it ends, so queries do not
influence each other.
-/

namespace ProbDatalog

/-- One answer of a query. -/
structure Answer where
  fact : Literal
  /-- The values of the variables of the query, by name. -/
  bindings : Assoc String Constant
  /-- The probability of the fact. -/
  probability : Float

/-- The values that a fact gives to the variables of a query. -/
def Answer.bindingsOf (query fact : Literal) : Assoc String Constant :=
  let s := (query.unify? fact .empty).getD .empty
  .ofList <| query.vars.filterMap fun v =>
    (s.resolve (.var v)).constant?.map fun c => (v.name, c)

/-- A program to be queried, where queries may keep their tables in stores of type `σ`. -/
structure Reasoner (σ : Type) where
  program : Program
  registry : Registry
  config : Config
  /-- What opening a store yields, where it takes the place of the storage in the settings. -/
  factory : Option (Except StoreFault σ)
  /-- Which directories there are to keep tables in. -/
  isDirectory : String → Bool

namespace Reasoner

variable {σ : Type}

/-- The reasoner without clauses. -/
def new (config : Config) (isDirectory : String → Bool) : Reasoner σ :=
  ⟨.empty, .standard, config, none, isDirectory⟩

/-- What appending a clause yields, and the reasoner that it leaves. -/
def assert (r : Reasoner σ) (c : Clause) : Except Error ClauseId × Reasoner σ :=
  let (id, program) := r.program.assert c
  (id, { r with program })

/-- Add an evaluable predicate. -/
def register (r : Reasoner σ) (e : Evaluable) : Reasoner σ :=
  { r with registry := r.registry.register e }

/-- Let queries open stores in another way. -/
def withFactory (r : Reasoner σ) (factory : Except StoreFault σ) : Reasoner σ :=
  { r with factory := some factory }

/-- What searches work from. -/
def theory (r : Reasoner σ) : Theory := ⟨r.program, r.registry, r.config.mode⟩

/-- The stores that queries keep their tables in. -/
abbrev Store (σ : Type) := (Resident ⊕ Journal) ⊕ σ

/-- Open a store without tables. -/
def openStore (r : Reasoner σ) : Except StoreFault (Store σ) :=
  match r.factory with
  | some factory => factory.map .inr
  | none => (r.config.storage.openStore r.isDirectory).map .inl

variable [Tables σ]

/-- Run a search on tables of its own, and give them up whatever it yields. An error of the search
comes before one of giving up the tables. -/
def run {α : Type} (r : Reasoner σ) (x : Searching (Store σ) α) : Except Halt α :=
  match r.openStore with
  | .error e => .error (.failed (.storage e))
  | .ok tables =>
    let (result, s) := x (Search.start tables 0)
    let (closed, _) := Searching.close s
    match result, closed with
    | .error h, _ => .error h
    | .ok _, .error h => .error h
    | .ok a, .ok () => .ok a

variable (r : Reasoner σ) (depth : Nat)

/-- The answers of a literal. -/
def query (q : Literal) : Except Halt (List Answer) :=
  r.run do
    let facts ← Searching.solve r.theory depth q
    facts.mapM fun fact => do
      let p ← Searching.probability r.theory depth Float fact
      return ⟨fact, Answer.bindingsOf q fact, r.config.round p⟩

/-- Whether a literal has answers. -/
def ask (q : Literal) : Except Halt Bool :=
  r.run do return !(← Searching.solve r.theory depth q).isEmpty

/-- The probability of a ground literal. -/
def probability (l : Literal) : Except Halt Float :=
  r.run do return r.config.round (← Searching.probability r.theory depth Float l)

/-- The proofs that show the answers of a literal. -/
def proofs (q : Literal) : Except Halt ProofSet := r.run (Searching.proofs r.theory depth q)

end Reasoner

end ProbDatalog
