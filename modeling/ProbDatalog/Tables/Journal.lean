import ProbDatalog.Assoc
import ProbDatalog.Tables

/-!
# Tables as journals

Each table is a file of its own, with a line for every answer and for every proof in the order of
writing. What is held ready is the length of the file and an index from digests to the places where
lines start. Records may share a digest, so a hit counts only once the line at the place has been
read and found equal. A store that was closed has no tables and takes none.

How a record is written is a parameter, and so are the digests.
-/

namespace ProbDatalog

namespace Journal

/-- An entry of a journal: an answer, or a proof of one. -/
structure Record where
  fact : Literal
  proof : Option Proof
  deriving DecidableEq, Hashable

/-- The records of an answer with proofs. -/
def recordsOf (fact : Literal) (proofs : List Proof) : List Record :=
  ⟨fact, none⟩ :: proofs.map fun q => ⟨fact, some q⟩

/-- How records are written in files of symbols, and by which digests they are found again. -/
structure Format (α : Type) where
  factDigest : Literal → UInt64
  proofDigest : Proof → UInt64
  /-- The symbol that ends a line. -/
  lineBreak : α
  /-- The text of a record. -/
  encode : Record → List α
  /-- The record that a text stands for, or the reason why there is none. -/
  decode : List α → Except String Record

/-- Digests with the places of the records that have them. -/
abbrev Index := Assoc UInt64 (List Nat)

/-- The number of places in an index. -/
def Index.count (index : Index) : Nat := index.values.flatten.length

/-- One journal with an index of its answers and one of its proofs. -/
structure Table (α : Type) where
  file : List α
  /-- The number of symbols written so far. -/
  length : Nat
  answers : Index
  proofs : Index

variable {α : Type} [DecidableEq α] (F : Format α)

namespace Format

/-- The digest of a record is that of its proof, or that of an answer. -/
def digest (r : Record) : UInt64 :=
  match r.proof with
  | some p => F.proofDigest p
  | none => F.factDigest r.fact

/-- The line of a record. -/
def line (r : Record) : List α := F.encode r ++ [F.lineBreak]

/-- The record on a line. -/
def read (text : List α) : Except StoreFault Record := (F.decode text).mapError .unreadable

/-- The lines of a file. The last one may lack its end. -/
def lines : List α → List (List α)
  | [] => []
  | a :: rest =>
    if a = F.lineBreak then [] :: lines rest
    else
      match lines rest with
      | [] => [[a]]
      | text :: texts => (a :: text) :: texts

/-- All records of a file. Empty lines are passed over. -/
def readAll (file : List α) : Except StoreFault (List Record) :=
  ((F.lines file).filter fun text => !text.isEmpty).mapM F.read

end Format

namespace Table

/-- The journal without entries. -/
def empty : Table α := ⟨[], 0, .empty, .empty⟩

/-- The record on the line that starts at a place. -/
def readAt (t : Table α) (place : Nat) : Except StoreFault Record :=
  F.read ((t.file.drop place).takeWhile fun a => a ≠ F.lineBreak)

/-- The index that a record belongs to. -/
def indexFor (t : Table α) (r : Record) : Index :=
  if r.proof.isSome then t.proofs else t.answers

/-- Whether the journal has the record. -/
def holds (t : Table α) (r : Record) : Except StoreFault Bool :=
  (((t.indexFor r).get? (F.digest r)).getD []).anyM fun place => return (← t.readAt F place) = r

/-- Those of the records that the journal does not have, each once. -/
def missing (t : Table α) (rs : List Record) : Except StoreFault (List Record) :=
  rs.foldlM (fun pending r => do
    if r ∈ pending then return pending
    else if ← t.holds F r then return pending
    else return pending ++ [r]) []

/-- Write a record on a line at the end. -/
def append (t : Table α) (r : Record) : Table α :=
  let noted (index : Index) : Index :=
    index.alter (F.digest r) fun places => places.getD [] ++ [t.length]
  let file := t.file ++ F.line r
  let length := t.length + (F.line r).length
  if r.proof.isSome then ⟨file, length, t.answers, noted t.proofs⟩
  else ⟨file, length, noted t.answers, t.proofs⟩

end Table

end Journal

/-- A map from patterns to journals of one format, open until it is closed. -/
structure Journals {α : Type} (F : Journal.Format α) where
  isOpen : Bool
  tables : Assoc CallPattern (Journal.Table α)

namespace Journals

open Journal

variable {α : Type} [DecidableEq α] {F : Format α}

/-- An open store without tables. -/
def empty : Journals F := ⟨true, .empty⟩

instance : Inhabited (Journals F) := ⟨empty⟩

/-- The journal of a pattern, unless the store is closed and has none. -/
def open? (s : Journals F) (p : CallPattern) : Except StoreFault (Table α) :=
  match s.tables.get? p with
  | some t => .ok t
  | none => if s.isOpen then .ok .empty else .error .closed

/-- The journal of a pattern; one that was never created has no entries. -/
def table (s : Journals F) (p : CallPattern) : Table α := (s.tables.get? p).getD .empty

/-- The records of a pattern in the order of writing. -/
def records (s : Journals F) (p : CallPattern) : Except StoreFault (List Record) :=
  F.readAll (s.table p).file

instance : Tables (Journals F) where
  get s p :=
    match s.open? p with
    | .error e => (.error e, s)
    | .ok t =>
      let tables := s.tables.insert p t
      (.ok ⟨p, (tables.indexOf? p).getD 0, t.answers.count, t.proofs.count⟩, { s with tables })
  contains s p := s.tables.contains p
  put s p fact proofs :=
    match s.open? p with
    | .error e => (.error e, s)
    | .ok t =>
      match t.missing F (recordsOf fact proofs) with
      | .error e => (.error e, { s with tables := s.tables.insert p t })
      | .ok news =>
        (.ok !news.isEmpty, { s with tables := s.tables.insert p (news.foldl (Table.append F) t) })
  answers s p := return ((← s.records p).map Record.fact).eraseDups
  proofs s p fact := return ((← s.records p).filter (·.fact = fact)).filterMap Record.proof
  recorded s p := return (← s.records p).filterMap Record.proof
  patterns s := s.tables.keys
  size s := s.tables.size
  close s := (.ok (), { s with isOpen := false, tables := .empty })

end Journals

namespace Journal

/-- The format in which a record is a symbol of its own, with the usual digests. -/
def Format.plain : Format (Option Record) where
  factDigest := hash
  proofDigest := hash
  lineBreak := none
  encode r := [some r]
  decode
    | [some r] => .ok r
    | _ => .error "not a record"

end Journal

/-- Journals whose lines are the records themselves. -/
abbrev Journal := Journals Journal.Format.plain

end ProbDatalog
