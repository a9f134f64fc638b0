import PhpFlow.Analysis.State

/-!
# Named constants

A name as an expression is a truth value, null, a declared constant, or one of the constants that every
program has.
-/
namespace PhpFlow

def builtinConstants : List (String × Value) :=
  [("PHP_INT_MAX", .int Number.maxInt), ("PHP_INT_MIN", .int Number.minInt), ("PHP_INT_SIZE", .int 8),
   ("PHP_EOL", .string "\n"), ("PHP_FLOAT_EPSILON", .float (Float.ofBits 0x3CB0000000000000)),
   ("M_PI", .float (Float.ofBits 0x400921FB54442D18)), ("E_ALL", .int 32767)]

/-- The names that stand for values in any case and namespace. -/
def reservedNames : List (String × Value) :=
  [("true", .bool true), ("false", .bool false), ("null", .null)]

namespace State

/-- A declared constant: of the current namespace, or else of the global one. -/
def constant? (s : State) (name : String) : Option ConstantSymbol :=
  if name.startsWith "\\" then s.symbols.constant? (.ofText name)
  else s.symbols.constant? (s.qualify name) <|> s.symbols.constant? (.ofText name)

def nameValue? (s : State) (name : String) : Option Value :=
  let plain := withoutLeadingSlashes name
  match reservedNames.lookup (Text.lower plain) with
  | some v => some v
  | none =>
    match s.constant? name with
    | some c => c.value
    | none => builtinConstants.lookup plain

def nameType? (s : State) (name : String) : Option TypeUnion :=
  match s.nameValue? name with
  | some v => some v.type
  | none => (s.constant? name).bind (·.type)

end State

end PhpFlow
