import ProbDatalog.Number.Decimal
import ProbDatalog.Text.Quoted

/-!
# Constants, variables and terms

The language has no function symbols: a term is a constant or a variable. Variables carry a scope
beside their name. Scope `0` belongs to whoever asks; each use of a clause has a scope of its own.
-/

namespace ProbDatalog

/-- A value. Values of different kinds are never equal. -/
inductive Constant where
  | boolean (value : Bool)
  | number (value : Number)
  | string (value : String)
  deriving DecidableEq, Hashable

/-- The three kinds of constants. -/
inductive Kind where
  | boolean
  | number
  | string
  deriving DecidableEq

/-- The name of a kind, as programs write it. -/
def Kind.name : Kind → String
  | .boolean => "boolean"
  | .number => "number"
  | .string => "string"

namespace Constant

/-- The kind of a constant. -/
def kind : Constant → Kind
  | boolean _ => .boolean
  | number _ => .number
  | string _ => .string

/-- Booleans come before numbers and numbers before strings. -/
def order : Constant → Constant → Ordering
  | boolean a, boolean b => compare a b
  | boolean _, _ => .lt
  | number _, boolean _ => .gt
  | number a, number b => compare a b
  | number _, string _ => .lt
  | string a, string b => compare a b
  | string _, _ => .gt

instance : Ord Constant := ⟨order⟩

/-- The text of a constant; only strings are quoted. -/
def display : Constant → String
  | boolean true => "true"
  | boolean false => "false"
  | number x => x.display
  | string s => Text.quote s

end Constant

/-- A variable: a name within a scope. -/
structure Variable where
  name : String
  scope : UInt32
  deriving DecidableEq, Hashable

namespace Variable

/-- First by name, then by scope. -/
def order (a b : Variable) : Ordering := (compare a.name b.name).then (compare a.scope b.scope)

instance : Ord Variable := ⟨order⟩

/-- The variable of the same name in another scope. -/
def rescoped (v : Variable) (scope : UInt32) : Variable := { v with scope }

/-- The name alone in scope `0`, otherwise the name and the scope. -/
def display (v : Variable) : String :=
  if v.scope = 0 then v.name else v.name ++ "_" ++ toString v.scope.toNat

end Variable

/-- A constant or a variable. -/
inductive Term where
  | const (value : Constant)
  | var (name : Variable)
  deriving DecidableEq, Hashable

namespace Term

/-- Constants come before variables. -/
def order : Term → Term → Ordering
  | const a, const b => compare a b
  | const _, var _ => .lt
  | var _, const _ => .gt
  | var a, var b => compare a b

instance : Ord Term := ⟨order⟩

/-- Whether the term is a constant. -/
def isGround : Term → Bool
  | const _ => true
  | var _ => false

/-- The constant, if the term is one. -/
def constant? : Term → Option Constant
  | const c => some c
  | var _ => none

/-- The variable, if the term is one. -/
def var? : Term → Option Variable
  | const _ => none
  | var v => some v

/-- Move a variable to another scope. -/
def rescoped (t : Term) (scope : UInt32) : Term :=
  match t with
  | const c => const c
  | var v => var (v.rescoped scope)

/-- The text of the constant or the variable. -/
def display : Term → String
  | const c => c.display
  | var v => v.display

end Term

end ProbDatalog
