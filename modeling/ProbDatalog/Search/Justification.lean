import ProbDatalog.Marginal
import ProbDatalog.Search

/-!
# Justifications

The proofs in all tables that a fact may rest on, found by going down from the fact: its own proofs,
those of their premises, and so on. A fact may have been derived under several patterns, so the
tables of all patterns that cover it count. A table is read when the first fact that it covers is
looked up, and what has been read is kept until the end of the walk.

* `Walk.step`: looking one fact up.
* `Searching.justification`: the proofs that take part in a derivation.
-/

namespace ProbDatalog

variable {σ : Type} [Tables σ]

/-- The way down from a fact. -/
structure Walk where
  /-- Facts that are to be looked up. -/
  queue : List Literal
  /-- Facts that have been looked up. -/
  seen : List Literal
  /-- What has been read, by pattern. -/
  kept : Assoc CallPattern (List Proof)
  /-- The patterns of the tables that have been read, one entry for each reading. -/
  reads : List CallPattern
  /-- The proofs of the facts that have been looked up. -/
  found : ProofSet

namespace Walk

/-- Nothing has been read. -/
def start (fact : Literal) : Walk := ⟨[fact], [], .empty, [], .empty⟩

/-- The proofs of a table, which is read if it has not been kept. -/
def table (tables : σ) (w : Walk) (p : CallPattern) : Except StoreFault (List Proof × Walk) :=
  match w.kept.get? p with
  | some l => .ok (l, w)
  | none => do
    let l ← Tables.recorded tables p
    return (l, { w with kept := w.kept.insert p l, reads := w.reads ++ [p] })

/-- Look a fact up in one table. What its proofs rest on is to be looked up later. -/
def look (tables : σ) (fact : Literal) (w : Walk) (p : CallPattern) : Except StoreFault Walk := do
  let (l, w) ← w.table tables p
  let proofs := l.filter (·.head = fact)
  return { w with
    queue := w.queue ++ proofs.flatMap Proof.dependencies, found := w.found.insertAll proofs }

/-- Look the next fact up in all tables that cover it. A fact that was seen is passed over. -/
def step (tables : σ) (w : Walk) : Except StoreFault Walk :=
  match w.queue with
  | [] => .ok w
  | fact :: queue =>
    if w.seen.contains fact then .ok { w with queue }
    else ((Tables.patterns tables).filter (·.covers fact)).foldlM (look tables fact)
      { w with queue, seen := fact :: w.seen }

/-- Take steps until no fact is left to be looked up, or a table cannot be read. -/
def run (tables : σ) : Nat → Walk → Except StoreFault Walk
  | 0, w => .ok w
  | steps + 1, w =>
    match w.queue with
    | [] => .ok w
    | _ :: _ => do run tables steps (← w.step tables)

end Walk

namespace Tables

/-- The proofs of a table; none where it cannot be read. -/
def readable (tables : σ) (p : CallPattern) : List Proof := (recorded tables p).toOption.getD []

/-- The number of facts that the proofs in all tables rest on, each counted for every proof. -/
def dependencyCount (tables : σ) : Nat :=
  ((patterns tables).flatMap fun p => (readable tables p).flatMap Proof.dependencies).length

/-- All proofs that a fact may rest on. A proof is found once in a table, and then queues the facts
that it rests on, which bounds the number of steps. -/
def proofsBelow (tables : σ) (fact : Literal) : Except StoreFault ProofSet :=
  return (← Walk.run tables (dependencyCount tables + 1) (.start fact)).found

end Tables

namespace Searching

/-- A result that is missing only where a fact rests on its own negation, and so never arrives. -/
def ofOption {α : Type} : Option α → Searching σ α
  | some a => pure a
  | none => throw .exhausted

/-- The proofs that take part in a derivation of the literal without detours, from what the tables
hold so far. -/
def justification (l : Literal) : Searching σ ProofSet := do
  let found ← readTables (Tables.proofsBelow · l.positive)
  ofOption (found.support? l)

end Searching

end ProbDatalog
