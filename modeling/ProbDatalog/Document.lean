import ProbDatalog.Number

/-!
# Structured documents

The tree in which values of the library are exchanged: null, Booleans, integers, doubles, texts,
arrays and objects. An integer and a double are different documents even where their values agree.
An object may repeat a name, and then the name stands for nothing.
-/

namespace ProbDatalog

/-- A document. The fields of an object are listed in the order in which they are written. -/
inductive Document where
  | null
  | boolean (value : Bool)
  | integer (value : Int)
  | double (value : Number)
  | text (value : String)
  | array (items : List Document)
  | object (fields : List (String × Document))

namespace Document

/-- The documents under a name in a list of fields. -/
def entries (name : String) (fields : List (String × Document)) : List Document :=
  (fields.filter (·.1 = name)).map Prod.snd

/-- The document under a name, if the name is given once. -/
def find? (name : String) (fields : List (String × Document)) : Option Document :=
  match entries name fields with
  | [d] => some d
  | _ => none

end Document

end ProbDatalog
