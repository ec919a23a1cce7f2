import ProbDatalog.Search.Expansion

/-!
# Queries of a search

What can be asked of a search: the answers of a literal, the probability of a fact, and the proofs
that show answers. Tables that one query has filled serve the next. All queries are bounded in the
depth of calls and the number of passes.
-/

namespace ProbDatalog

/-- How much a search has done. -/
structure Effort where
  /-- The number of tables. -/
  subgoals : Nat
  /-- The number of passes. -/
  passes : Nat
  /-- The number of answers in all tables together. -/
  answers : Nat
  deriving DecidableEq

namespace Searching

variable {σ : Type} [Tables σ] (w : Theory) (depth : Nat)

/-- The answers of a literal in the order of their derivation. A negated literal has to be ground
and is its own answer if it holds. -/
def solve (query : Literal) : Searching σ (List Literal) :=
  if query.negated then
    if query.isGround then do
      return if ← decideNegation w (expand w depth) depth query then [query] else []
    else fail (.openNegation query)
  else do
    match ← ofExcept (w.registry.resolve query) with
    | some e =>
      match ← ofExcept (e.evaluate query.terms) with
      | .reject => return []
      | .accept => return [query]
      | .bind bindings => return [bindings.apply query]
    | none =>
      let p := CallPattern.of query
      saturate w depth p
      let answers ← readTables (Tables.answers · p)
      return answers.filter fun answer => (query.unify? answer .empty).isSome

/-- Whether a literal is among its own answers. -/
def isAnswer (fact : Literal) : Searching σ Bool := return (← solve w depth fact).contains fact

/-- The probability of a ground literal. Where no proofs are kept, and for evaluable predicates, it
is one or zero. -/
def probability (α : Type) [Weight α] (l : Literal) : Searching σ α :=
  if l.isGround then do
    let fact := l.positive
    let evaluable ← ofExcept (w.registry.resolve fact)
    let p : α ←
      if w.mode = .problog ∧ evaluable.isNone then
        let _ ← solve w depth fact
        ofOption ((← justification fact).probability? α fact)
      else
        let holds ← isAnswer w depth fact
        pure (if holds then Weight.one else Weight.zero)
    return if l.negated then Weight.one - p else p
  else fail (.openNegation l)

/-- The proofs that show the answers of a literal. -/
def proofs (query : Literal) : Searching σ ProofSet := do
  let answers ← solve w depth query
  let found ← answers.mapM justification
  return found.foldl (fun s t => s.insertAll t.toList) .empty

/-- How much the search has done. -/
def effort : Searching σ Effort := do
  let patterns := Tables.patterns (← get).tables
  let subgoals ← patterns.mapM fun p => onTables (Tables.get · p)
  let s ← get
  let answers := subgoals.foldl (fun n g => n + g.answers) 0
  return ⟨Tables.size s.tables, s.passes, answers⟩

/-- Give up the tables. -/
def close : Searching σ Unit := onTables Tables.close

end Searching

end ProbDatalog
