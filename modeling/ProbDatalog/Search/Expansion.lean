import ProbDatalog.Search.Justification

/-!
# Expansion

To expand a pattern is to try all its clauses on what the tables hold and to add the answers that
follow to its table. The patterns that a clause calls are expanded first, each once a pass, so a
recursive call reads a table that is still growing. Passes are repeated until no table grows.

The rules are stated for an arbitrary way to expand the patterns that are called; `expand` is the
one that calls itself, to a bounded depth.

* `expandOnce_of_complete`: a pattern that is complete is not expanded again.
-/

namespace ProbDatalog.Searching

variable {σ : Type} [Tables σ] (w : Theory)

/-- A way through the body of a clause: the bindings, and the premises so far. -/
abbrev Branch := Substitution × List Premise

section Calls

variable (call : CallPattern → Searching σ Unit)

/-- Run passes until one leaves all tables as they were, but no more than the given number. -/
def fixpoint (p : CallPattern) : Nat → Searching σ Unit
  | 0 => throw .exhausted
  | passes + 1 => do
    let before := (← get).additions
    modify fun s => { s with expanded := [], passes := s.passes + 1 }
    call p
    if (← get).additions = before then return else fixpoint p passes

variable (passes : Nat)

/-- Decide a ground negated literal. It holds unless its positive form is an answer, and where
proofs are kept, unless that is certain. The negation of an evaluable call holds if the call is
rejected. -/
def decideNegation (negated : Literal) : Searching σ Bool := do
  let fact := negated.positive
  match ← ofExcept (w.registry.resolve fact) with
  | some e => return (← ofExcept (e.evaluate fact.terms)) = .reject
  | none =>
    let p := CallPattern.of fact
    refuting p negated (saturating p (fixpoint call p passes))
    let answers ← readTables (Tables.answers · p)
    if !answers.contains fact then return true
    match w.mode with
    | .datalog => return false
    | .problog =>
      let proofs ← justification fact
      let certain ← ofOption (proofs.isCertain? fact)
      return !certain

/-- The ways to make a literal of a body hold, each with the bindings after it and the premise that
it is. -/
def resolveLiteral (l : Literal) (s : Substitution) : Searching σ (List (Substitution × Premise)) :=
  let applied := s.apply l
  if applied.negated then
    if applied.isGround then do
      return if ← decideNegation w call passes applied then [(s, .relational applied)] else []
    else fail (.openNegation applied)
  else do
    match ← ofExcept (w.registry.resolve applied) with
    | some e =>
      match ← ofExcept (e.evaluate applied.terms) with
      | .reject => return []
      | .accept => return [(s, .evaluable applied)]
      | .bind bindings =>
        let (merged, next) := s.merge bindings
        return if merged then [(next, .evaluable (next.apply l))] else []
    | none =>
      let p := CallPattern.of applied
      call p
      let answers ← readTables (Tables.answers · p)
      return answers.filterMap fun answer =>
        (applied.unify? answer s).map fun next => (next, .relational answer)

/-- The ways through a body, from left to right. -/
def resolveBody : List Literal → Branch → Searching σ (List Branch)
  | [], branch => return [branch]
  | l :: rest, (s, premises) => do
    let nexts ← resolveLiteral w call passes l s
    let branches ← nexts.mapM fun next => resolveBody rest (next.1, premises ++ [next.2])
    return branches.flatten

/-- Add the head of a clause that a way through its body has led to. -/
def addAnswer (p : CallPattern) (id : ClauseId) (c : Clause) (branch : Branch) :
    Searching σ Unit := do
  let head := branch.1.apply c.head
  if head.isGround then
    let proofs := match w.mode with
      | .datalog => []
      | .problog => [⟨head, branch.2, c.probability, id⟩]
    if ← onTables (Tables.put · p head proofs) then
      modify fun s => { s with additions := s.additions + 1 }

/-- Try one clause, in a scope of its own. -/
def tryClause (p : CallPattern) (id : ClauseId) (c : Clause) : Searching σ Unit := do
  let c := c.rescoped (← freshScope)
  match c.head.unify? p.literal .empty with
  | none => return
  | some s =>
    let branches ← resolveBody w call passes c.body (s, [])
    branches.forM (addAnswer w p id c)

/-- Try all clauses of a pattern, unless it is complete or the pass has been there. -/
def expandOnce (p : CallPattern) : Searching σ Unit := do
  if ← enter p then
    if !Tables.contains (← get).tables p then
      let _ ← onTables (Tables.get · p)
    (w.program.candidates p.literal).forM fun (id, c) => tryClause w call passes p id c

variable {call passes} in
/-- A pattern that is complete is not expanded again. -/
theorem expandOnce_of_complete {p : CallPattern} {s : Search σ} (h : p ∈ s.complete) :
    expandOnce w call passes p s = (.ok (), s) := by
  have he : enter p s = (.ok false, s) := by simp [enter, h]
  simp only [expandOnce, bind, ExceptT.bind, ExceptT.mk, StateT.bind, he]
  rfl

end Calls

/-- Expand a pattern with calls nested to at most `depth` levels, each with at most that number of
passes. -/
def expand : Nat → CallPattern → Searching σ Unit
  | 0, _ => throw .exhausted
  | depth + 1, p => expandOnce w (expand depth) depth p

/-- Complete the table of a pattern. -/
def saturate (depth : Nat) (p : CallPattern) : Searching σ Unit :=
  saturating p (fixpoint (expand w depth) p depth)

end ProbDatalog.Searching
