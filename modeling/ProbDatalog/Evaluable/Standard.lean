import ProbDatalog.Evaluable.Comparison
import ProbDatalog.Evaluable.Function
import ProbDatalog.Number.Remainder
import ProbDatalog.Text.CaseMap

/-!
# The standard evaluable predicates

Six comparisons, one of them under two names, the test of kinds, five operations on numbers and
four functions of strings.
-/

namespace ProbDatalog

namespace Evaluable

/-- An operation that a zero on the right leaves undefined. -/
def unlessZero (operation : Number → Number → Number) (a b : Number) : Option Number :=
  if b.isZero then none else some (operation a b)

/-- The strings one after the other. -/
def concatenation (strings : List String) : Constant := .string (String.join strings)

/-- The number of characters of the first string. -/
def characterCount (strings : List String) : Constant :=
  .number (.ofFloat (Float.ofNat (strings.headD "").length))

/-- The standard predicates in the order of their registration. -/
def standard : List Evaluable := [
  comparison "<" .less,
  comparison ">" .greater,
  comparison "<=" .atMost,
  comparison ">=" .atLeast,
  comparison "=" .equal,
  comparison "!=" .different,
  comparison "<>" .different,
  kindTest,
  arithmetic "fn_add" fun a b => some (Number.liftFloat (· + ·) a b),
  arithmetic "fn_sub" fun a b => some (Number.liftFloat (· - ·) a b),
  arithmetic "fn_mul" fun a b => some (Number.liftFloat (· * ·) a b),
  arithmetic "fn_div" (unlessZero (Number.liftFloat (· / ·))),
  arithmetic "fn_mod" (unlessZero Number.euclideanRemainder),
  stringFunction "fn_concat" 2 concatenation,
  stringFunction "fn_lowercase" 1 fun strings => .string (Text.toLower (strings.headD "")),
  stringFunction "fn_uppercase" 1 fun strings => .string (Text.toUpper (strings.headD "")),
  stringFunction "fn_strlen" 1 characterCount]

end Evaluable

/-- The registry of the standard predicates. -/
def Registry.standard : Registry := .ofList Evaluable.standard

end ProbDatalog
