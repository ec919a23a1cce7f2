import ProbDatalog.Tables.Journal
import ProbDatalog.Tables.Resident

/-!
# Where tables are kept

The choice between memory and journals in a scratch directory.
-/

namespace ProbDatalog

/-- Where the tables of a query are kept. -/
inductive Storage where
  /-- In memory. -/
  | memory
  /-- In journals below a directory, or below the usual one. -/
  | disk (directory : Option String)
  deriving DecidableEq

namespace Storage

/-- Open a store without tables. A directory that is named has to exist. -/
def openStore (isDirectory : String → Bool) : Storage → Except StoreFault (Resident ⊕ Journal)
  | memory => .ok (.inl .empty)
  | disk none => .ok (.inr Journals.empty)
  | disk (some directory) =>
    if isDirectory directory then .ok (.inr Journals.empty) else .error (.noDirectory directory)

end Storage

end ProbDatalog
