import ProbDatalog.Config
import ProbDatalog.Document

/-!
# Values as documents

How the values of the library are written as documents and read back. A structure is an object of
its fields, or an array of them in order; fields of other names are passed over, and an object that
repeats one of its own is refused. A choice is an object with one field, named for the alternative,
and an alternative without content may be its name alone.

* `decode?_encode_list`: a list reads back member by member.
-/

namespace ProbDatalog

/-- Types whose values are exchanged as documents. -/
class Codec (α : Type) where
  /-- The document of a value. -/
  encode : α → Document
  /-- The value of a document, if it has the right form. -/
  decode? : Document → Option α

open Codec

namespace Document

/-- The documents of the named fields, each if there is such a field. None may be repeated. -/
def record? (names : List String) : Document → Option (List (Option Document))
  | object fields =>
    if names.all fun name => (entries name fields).length ≤ 1 then
      some (names.map (find? · fields))
    else none
  | array items => if items.length = names.length then some (items.map some) else none
  | _ => none

/-- An alternative and its content. -/
def alternative? : Document → Option (String × Document)
  | object [field] => some field
  | _ => none

/-- The number that an integer or a double is. -/
def number? : Document → Option Number
  | integer n => some (.ofFloat (Float.ofInt n))
  | double x => some x
  | _ => none

/-- A natural number. -/
def natural? : Document → Option Nat
  | integer n => if 0 ≤ n then some n.toNat else none
  | _ => none

end Document

instance : Codec Bool where
  encode := .boolean
  decode?
    | .boolean b => some b
    | _ => none

instance : Codec String where
  encode := .text
  decode?
    | .text s => some s
    | _ => none

instance : Codec UInt32 where
  encode n := .integer n.toNat
  decode? d := do
    let n ← d.natural?
    if n < UInt32.size then return .ofNat n else none

instance : Codec UInt64 where
  encode n := .integer n.toNat
  decode? d := do
    let n ← d.natural?
    if n < UInt64.size then return .ofNat n else none

instance {α : Type} [Codec α] : Codec (List α) where
  encode l := .array (l.map encode)
  decode?
    | .array items => items.mapM decode?
    | _ => none

instance {α : Type} [Codec α] : Codec (Option α) where
  encode
    | some a => encode a
    | none => .null
  decode?
    | .null => some none
    | d => (decode? d).map some

/-- A finite number is a double and reads back as its canonical form. Any other number is given by
its bits. -/
instance : Codec Number where
  encode x := if x.isFinite then .double x else .object [("bits", encode x.bits)]
  decode? d :=
    match d with
    | .object fields => (Document.find? "bits" fields >>= decode?).map Number.mk
    | _ => d.number?.map Number.canonical

instance : Codec Constant where
  encode
    | .boolean b => .object [("Boolean", encode b)]
    | .number x => .object [("Number", encode x)]
    | .string s => .object [("String", encode s)]
  decode? d :=
    match d.alternative? with
    | some ("Boolean", d) => (decode? d).map .boolean
    | some ("Number", d) => (decode? d).map .number
    | some ("String", d) => (decode? d).map .string
    | _ => none

instance : Codec Variable where
  encode v := .object [("name", encode v.name), ("scope", encode v.scope)]
  decode? d :=
    match d.record? ["name", "scope"] with
    | some [some name, some scope] => do return ⟨← decode? name, ← decode? scope⟩
    | _ => none

instance : Codec Term where
  encode
    | .const c => .object [("Constant", encode c)]
    | .var v => .object [("Variable", encode v)]
  decode? d :=
    match d.alternative? with
    | some ("Constant", d) => (decode? d).map .const
    | some ("Variable", d) => (decode? d).map .var
    | _ => none

instance : Codec Literal where
  encode l := .object [("predicate", encode l.predicate), ("terms", encode l.terms),
    ("negated", encode l.negated)]
  decode? d :=
    match d.record? ["predicate", "terms", "negated"] with
    | some [some predicate, some terms, some negated] => do
      return ⟨← decode? predicate, ← decode? terms, ← decode? negated⟩
    | _ => none

instance : Codec Probability where
  encode p := .double p.number
  decode? d := d.number? >>= Probability.ofNumber?

instance : Codec ClauseId where
  encode id := .integer id.index
  decode? d := d.natural?.map ClauseId.mk

instance : Codec Clause where
  encode c := .object [("head", encode c.head), ("body", encode c.body),
    ("probability", encode c.probability)]
  decode? d :=
    match d.record? ["head", "body", "probability"] with
    | some [some head, some body, some probability] => do
      return ⟨← decode? head, ← decode? body, ← decode? probability⟩
    | _ => none

instance : Codec Premise where
  encode
    | .relational l => .object [("Relational", encode l)]
    | .evaluable l => .object [("Builtin", encode l)]
  decode? d :=
    match d.alternative? with
    | some ("Relational", d) => (decode? d).map .relational
    | some ("Builtin", d) => (decode? d).map .evaluable
    | _ => none

instance : Codec Proof where
  encode p := .object [("head", encode p.head), ("body", encode p.body),
    ("probability", encode p.probability), ("clause", encode p.clause)]
  decode? d :=
    match d.record? ["head", "body", "probability", "clause"] with
    | some [some head, some body, some probability, some clause] => do
      return ⟨← decode? head, ← decode? body, ← decode? probability, ← decode? clause⟩
    | _ => none

instance : Codec CallPattern where
  encode p := encode p.literal
  decode? d := (decode? d).map CallPattern.mk

instance : Codec Mode where
  encode
    | .datalog => .text "Datalog"
    | .problog => .text "ProbLog"
  decode?
    | .text "Datalog" => some .datalog
    | .text "ProbLog" => some .problog
    | .object [("Datalog", .null)] => some .datalog
    | .object [("ProbLog", .null)] => some .problog
    | _ => none

instance : Codec Storage where
  encode
    | .memory => .text "Memory"
    | .disk directory => .object [("Disk", .object [("directory", encode directory)])]
  decode?
    | .text "Memory" => some .memory
    | .object [("Memory", .null)] => some .memory
    -- the content of an alternative is not read from an array
    | .object [("Disk", .object fields)] =>
      match (Document.object fields).record? ["directory"] with
      | some [directory] => (decode? (directory.getD .null)).map .disk
      | _ => none
    | _ => none

instance : Codec Config where
  encode c := .object [("mode", encode c.mode), ("storage", encode c.storage),
    ("precision", encode c.precision)]
  decode? d :=
    match d.record? ["mode", "storage", "precision"] with
    | some [some mode, some storage, precision] => do
      return ⟨← decode? mode, ← decode? storage, ← decode? (precision.getD .null)⟩
    | _ => none

@[simp] theorem decode?_encode_bool (b : Bool) : decode? (encode b) = some b := rfl

@[simp] theorem decode?_encode_string (s : String) : decode? (encode s) = some s := rfl

/-- A list reads back member by member. -/
theorem decode?_encode_list {α : Type} [Codec α] {f : α → α} {l : List α}
    (h : ∀ a ∈ l, decode? (encode a) = some (f a)) : decode? (encode l) = some (l.map f) := by
  change (l.map encode).mapM decode? = some (l.map f)
  induction l with
  | nil => rfl
  | cons a rest ih =>
    rw [List.map_cons, List.mapM_cons, h a List.mem_cons_self,
      ih fun b hb => h b (List.mem_cons_of_mem a hb)]
    rfl

end ProbDatalog
