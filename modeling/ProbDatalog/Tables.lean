import ProbDatalog.CallPattern
import ProbDatalog.Error
import ProbDatalog.Proof

/-!
# Tables

What a search has derived, by call pattern. Each pattern has a table of answers in the order of
their derivation, each answer with its proofs. Tables only grow. `Tables` is what a search asks of
the place where they are kept; a search cannot tell such places apart that agree on these
operations.

* `Sum.instTables`: a store of either of two kinds is a store.
-/

namespace ProbDatalog

/-- The size of one table. -/
structure Subgoal where
  pattern : CallPattern
  /-- The number of tables that were created before it. -/
  rank : Nat
  /-- The number of its answers. -/
  answers : Nat
  /-- The number of its proofs. -/
  proofs : Nat
  deriving DecidableEq

/-- Stores of tables. -/
class Tables (σ : Type) where
  /-- The table of a pattern, which is created without answers if there is none. -/
  get : σ → CallPattern → Except StoreFault Subgoal × σ
  /-- Whether there is a table for the pattern. -/
  contains : σ → CallPattern → Bool
  /-- Add an answer with proofs of it, and tell whether the answer or one of the proofs is new. -/
  put : σ → CallPattern → Literal → List Proof → Except StoreFault Bool × σ
  /-- The answers in the order of their derivation. -/
  answers : σ → CallPattern → Except StoreFault (List Literal)
  /-- The proofs of one answer. -/
  proofs : σ → CallPattern → Literal → Except StoreFault (List Proof)
  /-- All proofs of one table, in an order of the store's own. -/
  recorded : σ → CallPattern → Except StoreFault (List Proof)
  /-- The patterns that have tables, in the order of creation. -/
  patterns : σ → List CallPattern
  /-- The number of tables. -/
  size : σ → Nat
  /-- Give up all tables. -/
  close : σ → Except StoreFault Unit × σ

namespace Tables

/-- Whether there are no tables. -/
def isEmpty {σ : Type} [Tables σ] (s : σ) : Bool := size s = 0

end Tables

/-- A store of either of two kinds. -/
instance Sum.instTables {σ τ : Type} [Tables σ] [Tables τ] : Tables (σ ⊕ τ) where
  get
    | .inl s, p => (Tables.get s p).map id .inl
    | .inr s, p => (Tables.get s p).map id .inr
  contains
    | .inl s, p => Tables.contains s p
    | .inr s, p => Tables.contains s p
  put
    | .inl s, p, f, ps => (Tables.put s p f ps).map id .inl
    | .inr s, p, f, ps => (Tables.put s p f ps).map id .inr
  answers
    | .inl s, p => Tables.answers s p
    | .inr s, p => Tables.answers s p
  proofs
    | .inl s, p, f => Tables.proofs s p f
    | .inr s, p, f => Tables.proofs s p f
  recorded
    | .inl s, p => Tables.recorded s p
    | .inr s, p => Tables.recorded s p
  patterns
    | .inl s => Tables.patterns s
    | .inr s => Tables.patterns s
  size
    | .inl s => Tables.size s
    | .inr s => Tables.size s
  close
    | .inl s => (Tables.close s).map id .inl
    | .inr s => (Tables.close s).map id .inr

end ProbDatalog
