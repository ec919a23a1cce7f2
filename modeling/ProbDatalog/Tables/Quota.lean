import ProbDatalog.Tables.Resident

/-!
# Tables with a quota

A store in memory that takes a limited number of writes and may refuse to be closed. It tells what
a search does when its tables fail.
-/

namespace ProbDatalog

/-- A store in memory with the number of writes that it still takes. -/
structure Quota where
  content : Resident
  writesLeft : Nat
  /-- Whether the store refuses to be closed, and then keeps its tables. -/
  staysOpen : Bool

namespace Quota

/-- A store without tables that takes a number of writes. -/
def new (writes : Nat) (staysOpen : Bool) : Quota := ⟨.empty, writes, staysOpen⟩

/-- Replace the content. -/
def withContent {α : Type} (s : Quota) (r : α × Resident) : α × Quota :=
  (r.1, { s with content := r.2 })

instance : Tables Quota where
  get s p := s.withContent (Tables.get s.content p)
  contains s p := Tables.contains s.content p
  put s p fact proofs :=
    match s.writesLeft with
    | 0 => (.error (.refused "limit"), s)
    | left + 1 => { s with writesLeft := left }.withContent (Tables.put s.content p fact proofs)
  answers s p := Tables.answers s.content p
  proofs s p fact := Tables.proofs s.content p fact
  recorded s p := Tables.recorded s.content p
  patterns s := Tables.patterns s.content
  size s := Tables.size s.content
  close s :=
    if s.staysOpen then (.error (.refused "close"), s) else s.withContent (Tables.close s.content)

end Quota

end ProbDatalog
