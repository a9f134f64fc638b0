import PhpFlow.Type.Basic

/-!
# Constant values

The values that constant folding computes with. Of an object only the class is known.
-/
namespace PhpFlow

inductive Value where
  | null
  | bool (b : Bool)
  | int (n : Int)
  | float (x : Float)
  | string (s : String)
  | array (entries : List (ArrayKey × Value))
  | object (className : QualifiedName)
  deriving Inhabited

namespace Value

/-- The word for a kind of value in notes about unsupported operations. -/
def kindWord : Value → String
  | null => "NullValue"
  | bool _ => "BoolValue"
  | int _ => "IntValue"
  | float _ => "FloatValue"
  | string _ => "StringValue"
  | array _ => "ArrayValue"
  | object _ => "ObjectValue"

def isNull : Value → Bool
  | null => true
  | _ => false

def lookup? (k : ArrayKey) : List (ArrayKey × Value) → Option Value
  | [] => none
  | (k', v) :: rest => if k = k' then some v else lookup? k rest

end Value

end PhpFlow
