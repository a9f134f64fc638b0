import PhpFlow.Evaluation.ArrayLiteral

/-!
# Types and values of expressions

The meaning of an expression is put together from the meanings of its parts. Asking for it changes
nothing; what it finds on the way, such as a division by zero, comes as issues.
-/
namespace PhpFlow

def Operands.ofExprs (r : Range) (left right : Expr) (leftMeaning rightMeaning : Meaning) :
    Operands where
  range := some r
  leftType := leftMeaning.type
  rightType := rightMeaning.type
  leftValue := leftMeaning.value
  rightValue := rightMeaning.value
  rightClass := Query.ask fun s => right.name?.map s.resolveClass
  leftVariable := left.variableName?
  rightVariable := right.variableName?

def closureType : TypeUnion := .single (.named ⟨["Closure"]⟩ "Closure")

mutual

def Expr.meaning : Expr → Meaning
  | .var r n => .ofVariable r n
  | .integer _ n => .ofResult (Value.ofNumber (.int n))
  | .float _ x => .constant (.float x)
  | .string _ none => .ofType (.prim .string)
  | .string _ (some s) => .constant (.string s)
  | .boolean _ b => .constant (.bool b)
  | .null _ => .constant .null
  | .name _ n => .ofName n
  | .array _ es => ArrayLiteral.meaning (elementMeanings es)
  | .assign _ _ b _ => b.meaning
  | .augment r a op b | .binary r a op b =>
    .operation r op (.ofExprs r a b a.meaning b.meaning)
  | .unary _ op a => .unary op a.meaning
  | .update _ _ a _ => .update a.meaning
  | .paren _ a => a.meaning
  | .ternary _ c b a => .ternary c.meaning (optionMeaning b) a.meaning
  | .call _ f _ => .call f.name?
  | .create _ c _ => .create c.name?
  | .cast _ t a => .cast t a.meaning
  | .subscript _ b i => .subscript b.meaning (optionMeaning i)
  | .sequence _ es => lastMeaning es
  | .closure _ _ _ => .ofType closureType
  | .select _ _ _ | .unknown _ _ _ | .error _ _ => .unknown

def optionMeaning : Option Expr → Option Meaning
  | none => none
  | some e => some e.meaning

def elementMeanings : List Element → List ElementMeaning
  | [] => []
  | ⟨_, v, k, spread, byRef⟩ :: es =>
    ⟨v.meaning, optionMeaning k, spread, byRef⟩ :: elementMeanings es

/-- A sequence means what its last expression does. -/
def lastMeaning : List Expr → Meaning
  | [] => .unknown
  | [e] => e.meaning
  | _ :: e :: es => lastMeaning (e :: es)

end

namespace Expr

/-- The type of an expression at the current point, if it is known. -/
def type (e : Expr) : Query (Option TypeUnion) := e.meaning.type

/-- The value of an expression at the current point, if it folds to a constant. -/
def value (e : Expr) : Query (Option Value) := e.meaning.value

end Expr

end PhpFlow
