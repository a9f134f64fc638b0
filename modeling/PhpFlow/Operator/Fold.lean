import PhpFlow.Analysis.Query
import PhpFlow.Number.Bits
import PhpFlow.Operator.Basic

/-!
# Folding binary operators

The type and, where both operands are constants, the value of an operation. Operands that the fold does
not cover are noted; an operand that is just unknown is not.
-/
namespace PhpFlow

/-- What an operation may ask about its operands. -/
structure Operands where
  range : Option Range
  leftType : Query (Option TypeUnion)
  rightType : Query (Option TypeUnion)
  leftValue : Query (Option Value)
  rightValue : Query (Option Value)
  /-- The class that the right operand names, as `instanceof` takes it. -/
  rightClass : Query (Option QualifiedName)
  leftVariable : Option String
  rightVariable : Option String

namespace Operands

/-- Operands that are known beforehand; where no type is given a value brings its own. -/
def constant (range : Option Range) (left right : Option Value) (leftType rightType : Option TypeUnion)
    (rightClass : Option QualifiedName) (leftVariable rightVariable : Option String) : Operands where
  range := range
  leftType := Query.pure (leftType <|> left.map Value.type)
  rightType := Query.pure (rightType <|> right.map Value.type)
  leftValue := Query.pure left
  rightValue := Query.pure right
  rightClass := Query.pure rightClass
  leftVariable := leftVariable
  rightVariable := rightVariable

end Operands

namespace Operator

def integerLike : List Primitive := [.int, .bool, .null, .literalTrue, .literalFalse]

def numberType : TypeUnion := .ofList [.primitive .int, .primitive .float]

/-- The type of an arithmetic operation on operands of known types. An array is an operand only of
addition, and then both must be arrays. -/
def arithmeticType (op : Operator) (o : Operands) (left right : TypeUnion) :
    Query (Option TypeUnion) := do
  if op = add && left.onlyArrays && right.onlyArrays then return some (.prim .array)
  else if left.onlyArrays || right.onlyArrays then
    let l ← Query.ofExcept left.write
    let r ← Query.ofExcept right.write
    Query.report .unsupportedOperands
      ("Unsupported operand types: " ++ l ++ " " ++ op.token ++ " " ++ r) o.range
    return none
  else if op = modulo then return some (.prim .int)
  else if left.allAmong integerLike && right.allAmong integerLike then
    if op = divide || op = power then return some numberType else return some (.prim .int)
  else if left.allAmong (.float :: integerLike) && right.allAmong (.float :: integerLike) then
    return some (.prim .float)
  else return some numberType

/-- Bitwise operators other than shifts work on two strings byte by byte. -/
def bitwiseType (op : Operator) (left right : Option TypeUnion) : TypeUnion :=
  match op, left, right with
  | .bitAnd, some l, some r | .bitOr, some l, some r | .bitXor, some l, some r =>
    if l.isPrimitive .string && r.isPrimitive .string then .prim .string else .prim .int
  | _, _, _ => .prim .int

/-- The right operand of `??` counts only if the left may be null. -/
def coalesceType : Option TypeUnion → Option TypeUnion → Option TypeUnion
  | none, right => right
  | some l, right =>
    if l.isNullable then right.map fun r => l.withoutNull.union r else some l

def type (op : Operator) (o : Operands) : Query (Option TypeUnion) :=
  match op with
  | greater | less | greaterOrEqual | lessOrEqual | equal | notEqual | identical | notIdentical
  | wordAnd | boolAnd | wordOr | boolOr | wordXor | instanceOf => Query.pure (some (.prim .bool))
  | spaceship => Query.pure (some (.prim .int))
  | concat => Query.pure (some (.prim .string))
  | add | subtract | multiply | power | divide | modulo => do
    let left ← o.leftType
    let right ← o.rightType
    match left, right with
    | some l, some r => op.arithmeticType o l r
    | _, _ => return none
  | bitAnd | bitOr | bitXor | shiftLeft | shiftRight => do
    let left ← o.leftType
    let right ← o.rightType
    return some (op.bitwiseType left right)
  | coalesce => do
    let left ← o.leftType
    let right ← o.rightType
    return coalesceType left right

/-- Notes that an operation on these kinds of values is not covered. -/
def uncovered (op : Operator) (o : Operands) (l r : Value) : Query (Option Value) := do
  Query.reportMissing (op.token ++ " between " ++ l.kindWord ++ " and " ++ r.kindWord) o.range
  return none

/-- Only numbers of the same kind are ordered. -/
def orderedInts (op : Operator) (a b : Int) : Bool :=
  match op with
  | greater => b < a
  | less => a < b
  | greaterOrEqual => b ≤ a
  | _ => a ≤ b

def orderedFloats (op : Operator) (a b : Float) : Bool :=
  match op with
  | greater => b < a
  | less => a < b
  | greaterOrEqual => b ≤ a
  | _ => a ≤ b

def orderingValue (op : Operator) (o : Operands) (l r : Value) : Query (Option Value) :=
  match l, r with
  | .int a, .int b => Query.pure (some (.bool (op.orderedInts a b)))
  | .float a, .float b => Query.pure (some (.bool (op.orderedFloats a b)))
  | _, _ => op.uncovered o l r

def signOf (isGreater isLess : Bool) : Int :=
  (if isGreater then 1 else 0) - (if isLess then 1 else 0)

def spaceshipValue (o : Operands) (l r : Value) : Query (Option Value) :=
  match l, r with
  | .int a, .int b => Query.pure (some (.int (signOf (b < a) (a < b))))
  | .float a, .float b => Query.pure (some (.int (signOf (b < a) (a < b))))
  | _, _ => spaceship.uncovered o l r

def equalityValue (op : Operator) (o : Operands) (l r : Value) : Query (Option Value) := do
  let same ←
    match op with
    | identical | notIdentical => Query.pure (l.identical r)
    | _ => Query.ofExcept (l.looseEqual r)
  match same with
  | none => op.uncovered o l r
  | some b =>
    match op with
    | notEqual | notIdentical => return some (.bool !b)
    | _ => return some (.bool b)

def arrayUnion (as bs : List (ArrayKey × Value)) : List (ArrayKey × Value) :=
  as ++ bs.filter fun b => !(as.any fun a => a.1 = b.1)

def moduloValue (o : Operands) (l r : Value) : Query (Option Value) := do
  let a ← Query.ofExcept l.toInt?
  let b ← Query.ofExcept r.toInt?
  match a, b with
  | some a, some b =>
    if b = 0 then
      Query.report .divisionByZero "Modulo by zero" o.range
      return none
    else return some (.int (Number.remainder a b))
  | _, _ => return none

/-- The result of an arithmetic operation other than a remainder on two numbers. -/
def numberValue (op : Operator) (o : Operands) (a b : Number) : Query (Option Value) := do
  match op with
  | add => finish (a.add b)
  | subtract => finish (a.sub b)
  | multiply => finish (a.mul b)
  | divide =>
    if b.isZero then
      Query.report .divisionByZero "Division by zero" o.range
      return none
    else finish (a.div b)
  | _ =>
    match a.pow b with
    | none => return none
    | some n => finish (.ok n)
where
  finish (r : Except Fault Number) : Query (Option Value) :=
    Query.ofExcept (r.bind fun n => (Value.ofNumber n).map some)

def arithmeticValue (op : Operator) (o : Operands) (l r : Value) : Query (Option Value) :=
  match l, r with
  | .array as, .array bs =>
    Query.pure (if op = add then some (.array (arrayUnion as bs)) else none)
  | .array _, _ | _, .array _ => Query.pure none
  | _, _ =>
    if op = modulo then moduloValue o l r
    else do
      let a ← Query.ofExcept l.toNumber?
      let b ← Query.ofExcept r.toNumber?
      match a, b with
      | some a, some b => op.numberValue o a b
      | _, _ => return none

def concatValue (l r : Value) : Except Fault (Option Value) := do
  let a ← l.toString?
  let b ← r.toString?
  match a, b with
  | some a, some b => return some (.string (a ++ b))
  | _, _ => return none

/-- Shifts by a negative number are not folded. -/
def bitwiseInts (op : Operator) (a b : Int) : Option Int :=
  match op with
  | bitAnd => some (Number.bitAnd a b)
  | bitOr => some (Number.bitOr a b)
  | bitXor => some (Number.bitXor a b)
  | shiftLeft => if b < 0 then none else some (Number.shiftLeft a b.toNat)
  | _ => if b < 0 then none else some (Number.shiftRight a b.toNat)

def bitwiseValue (op : Operator) (o : Operands) (l r : Value) : Query (Option Value) :=
  match l, r with
  | .int a, .int b => Query.pure ((op.bitwiseInts a b).map .int)
  | _, _ => op.uncovered o l r

/-- Decided if every atom of the left type gives the same verdict. -/
def instanceValue (o : Operands) : Query (Option Value) := do
  let symbol ← o.rightClass
  let left ← o.leftType
  match symbol, left with
  | none, _ =>
    Query.reportMissing "instanceof with a dynamic class operand" o.range
    return none
  | some _, none => return none
  | some c, some u =>
    let derives ← Query.ask fun s => s.symbols.derives
    let verdicts := u.atoms.map (Atom.instanceVerdict derives c)
    if u.isEmpty then return none
    else if verdicts.all (· == some false) then return some (.bool false)
    else if verdicts.all (· == some true) then return some (.bool true)
    else return none

def onValues (o : Operands) (f : Value → Value → Query (Option Value)) : Query (Option Value) := do
  let left ← o.leftValue
  let right ← o.rightValue
  match left, right with
  | some l, some r => f l r
  | _, _ => return none

/-- A connective whose left operand alone decides if its truth is `decisive`. -/
def connectiveValue (decisive : Bool) (o : Operands) : Query (Option Value) := do
  let left ← o.leftValue
  if left.map Value.truth = some decisive then return some (.bool decisive)
  else
    let right ← o.rightValue
    if right.map Value.truth = some decisive then return some (.bool decisive)
    else if left.isSome && right.isSome then return some (.bool !decisive)
    else return none

def value (op : Operator) (o : Operands) : Query (Option Value) :=
  match op with
  | greater | less | greaterOrEqual | lessOrEqual => onValues o (op.orderingValue o)
  | spaceship => onValues o (spaceshipValue o)
  | equal | notEqual | identical | notIdentical => onValues o (op.equalityValue o)
  | wordAnd | boolAnd => connectiveValue false o
  | wordOr | boolOr => connectiveValue true o
  | wordXor => onValues o fun l r => Query.pure (some (.bool (l.truth != r.truth)))
  | add | subtract | multiply | power | divide | modulo => onValues o (op.arithmeticValue o)
  | concat => onValues o fun l r => Query.ofExcept (concatValue l r)
  | bitAnd | bitOr | bitXor | shiftLeft | shiftRight => onValues o (op.bitwiseValue o)
  | coalesce => do
    let left ← o.leftValue
    match left with
    | none => return none
    | some .null => o.rightValue
    | some v => return some v
  | instanceOf => instanceValue o

end Operator

end PhpFlow
