import ProbDatalog.Assoc
import ProbDatalog.Tables

/-!
# Tables in memory

Each table maps its answers to their proofs. Closing empties the store, which can then be filled
again.
-/

namespace ProbDatalog

/-- A map from patterns to answers with their proofs. -/
structure Resident where
  tables : Assoc CallPattern (Assoc Literal (List Proof))
  deriving DecidableEq

namespace Resident

/-- The store without tables. -/
def empty : Resident := ⟨.empty⟩

instance : Inhabited Resident := ⟨empty⟩

/-- The table of a pattern; one that was never created has no answers. -/
def table (s : Resident) (p : CallPattern) : Assoc Literal (List Proof) :=
  (s.tables.get? p).getD .empty

/-- Append the proofs that are not listed yet. -/
def appendNew (known : List Proof) (proofs : List Proof) : List Proof :=
  proofs.foldl (fun known p => if p ∈ known then known else known ++ [p]) known

/-- Whether an answer or one of its proofs is missing in a table. -/
def isNews (table : Assoc Literal (List Proof)) (fact : Literal) (proofs : List Proof) : Bool :=
  match table.get? fact with
  | none => true
  | some known => proofs.any (· ∉ known)

/-- Add an answer with proofs to a table. -/
def record (table : Assoc Literal (List Proof)) (fact : Literal) (proofs : List Proof) :
    Assoc Literal (List Proof) :=
  table.alter fact fun known => appendNew (known.getD []) proofs

instance : Tables Resident where
  get s p :=
    let table := s.table p
    let tables := s.tables.insert p table
    (.ok ⟨p, (tables.indexOf? p).getD 0, table.size, table.values.flatten.length⟩, ⟨tables⟩)
  contains s p := s.tables.contains p
  put s p fact proofs :=
    (.ok (isNews (s.table p) fact proofs), ⟨s.tables.insert p (record (s.table p) fact proofs)⟩)
  answers s p := .ok (s.table p).keys
  proofs s p fact := .ok (((s.table p).get? fact).getD [])
  recorded s p := .ok (s.table p).values.flatten
  patterns s := s.tables.keys
  size s := s.tables.size
  close _ := (.ok (), empty)

end Resident

end ProbDatalog
