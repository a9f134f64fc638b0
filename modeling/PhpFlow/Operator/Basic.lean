import PhpFlow.Text.Blank
import PhpFlow.Text.Lower

/-!
# Binary operators
-/
namespace PhpFlow

inductive Operator where
  | notEqual | notIdentical | modulo | bitAnd | boolAnd | multiply | power | add | subtract | concat
  | divide | less | shiftLeft | lessOrEqual | spaceship | equal | identical | greater
  | greaterOrEqual | shiftRight | coalesce | bitXor | wordAnd | instanceOf | wordOr | wordXor | bitOr
  | boolOr
  deriving DecidableEq, Repr

namespace Operator

def all : List Operator :=
  [notEqual, notIdentical, modulo, bitAnd, boolAnd, multiply, power, add, subtract, concat, divide,
   less, shiftLeft, lessOrEqual, spaceship, equal, identical, greater, greaterOrEqual, shiftRight,
   coalesce, bitXor, wordAnd, instanceOf, wordOr, wordXor, bitOr, boolOr]

def token : Operator → String
  | notEqual => "!="
  | notIdentical => "!=="
  | modulo => "%"
  | bitAnd => "&"
  | boolAnd => "&&"
  | multiply => "*"
  | power => "**"
  | add => "+"
  | subtract => "-"
  | concat => "."
  | divide => "/"
  | less => "<"
  | shiftLeft => "<<"
  | lessOrEqual => "<="
  | spaceship => "<=>"
  | equal => "=="
  | identical => "==="
  | greater => ">"
  | greaterOrEqual => ">="
  | shiftRight => ">>"
  | coalesce => "??"
  | bitXor => "^"
  | wordAnd => "and"
  | instanceOf => "instanceof"
  | wordOr => "or"
  | wordXor => "xor"
  | bitOr => "|"
  | boolOr => "||"

/-- The operator a token stands for, in any case and with blanks around it; `<>` is another `!=`. -/
def ofToken? (t : String) : Option Operator :=
  let w := Text.lower (Text.trim t)
  if w = "<>" then some notEqual else all.find? fun op => op.token = w

/-- Both operands hold if the whole does. -/
def isConjunction : Operator → Bool
  | wordAnd | boolAnd => true
  | _ => false

/-- Neither operand holds if the whole does not. -/
def isDisjunction : Operator → Bool
  | wordOr | boolOr => true
  | _ => false

/-- The right operand may be left unevaluated. -/
def isShortCircuit (op : Operator) : Bool :=
  op.isConjunction || op.isDisjunction || op == coalesce

end Operator

end PhpFlow
