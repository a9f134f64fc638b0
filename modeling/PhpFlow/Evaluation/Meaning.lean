import PhpFlow.Evaluation.Constant
import PhpFlow.Operator.Fold
import PhpFlow.Syntax.Basic

/-!
# The meaning of an expression

What can be asked about an expression at a point of the program: its type and, if it folds to a constant,
its value. For every construct there is a function from the meanings of its parts to its own.
-/
namespace PhpFlow

structure Meaning where
  type : Query (Option TypeUnion)
  value : Query (Option Value)

namespace Meaning

def unknown : Meaning := ⟨pure none, pure none⟩

def ofType (u : TypeUnion) : Meaning := ⟨pure (some u), pure none⟩

def constant (v : Value) : Meaning := ⟨pure (some v.type), pure (some v)⟩

/-- A literal that may be too large to have a value. -/
def ofResult (v : Except Fault Value) : Meaning where
  type := Query.ofExcept (v.map fun v => some v.type)
  value := Query.ofExcept (v.map some)

def thisType (s : State) : TypeUnion :=
  match s.currentClass with
  | none => .prim .object
  | some c => .single (.named c c.baseName)

/-- A variable of the current scope, which may turn out not to be live. -/
def ofVariable (r : Range) (name : String) : Meaning where
  type :=
    if name = "this" then Query.ask fun s => some (thisType s)
    else Query.guarded r (Query.askFault fun s => do
      let scope ← s.currentScope
      return (scope.var? name).bind (·.flowType))
  value :=
    Query.guarded r (Query.askFault fun s => do
      let scope ← s.currentScope
      return (scope.var? name).bind (·.flowValue))

def ofName (name : String) : Meaning where
  type := Query.ask fun s => s.nameType? name
  value := Query.ask fun s => s.nameValue? name

def unrecognized {α : Type} (r : Range) (token : String) : Query (Option α) := do
  Query.report .internalError ("unrecognized binary operator " ++ Text.quote token) (some r)
  return none

def operation (r : Range) (token : String) (o : Operands) : Meaning :=
  match Operator.ofToken? token with
  | none => ⟨unrecognized r token, unrecognized r token⟩
  | some op => ⟨op.type o, op.value o⟩

def unaryType (op : String) (operand : Meaning) : Query (Option TypeUnion) :=
  if op = "!" then pure (some (.prim .bool))
  else if op = "~" then pure (some (.prim .int))
  else if op = "@" then operand.type
  else do
    match ← operand.type with
    | some u =>
      if u.isPrimitive .int || u.isPrimitive .float then return some u
      else return some Operator.numberType
    | none => return some Operator.numberType

/-- A sign before a number. -/
def signValue (op : String) (v : Value) : Except Fault (Option Value) := do
  match ← v.toNumber? with
  | none => return none
  | some n =>
    if op = "-" then (Value.ofNumber n.neg).map some
    else if op = "+" then (Value.ofNumber n).map some
    else return none

def unaryValue (op : String) (v : Value) : Except Fault (Option Value) :=
  if op = "!" then .ok (some (.bool !v.truth))
  else if op = "@" then .ok (some v)
  else if op = "~" then
    match v with
    | .int n => .ok (some (.int (Number.bitNot n)))
    | _ => .ok none
  else signValue op v

def withValue {α : Type} (q : Query (Option Value)) (f : Value → Query (Option α)) :
    Query (Option α) := do
  match ← q with
  | none => return none
  | some v => f v

def unary (op : String) (operand : Meaning) : Meaning where
  type := unaryType op operand
  value := withValue operand.value fun v => Query.ofExcept (unaryValue op v)

/-- The type after counting up or down; counting null up gives an integer. -/
def update (operand : Meaning) : Meaning where
  type := do
    match ← operand.type with
    | none => return some Operator.numberType
    | some u =>
      if u.isNullable then return some (u.withoutNull.union (.prim .int)) else return some u
  value := pure none

/-- The type of a choice whose condition may be known. -/
def choose (truth : Option Bool) (thenType elseType : Option TypeUnion) : Option TypeUnion :=
  match truth, thenType, elseType with
  | some true, t, _ => t
  | some false, _, e => e
  | none, some t, some e => some (t.union e)
  | none, _, _ => none

/-- A choice. Without a body the condition itself is the outcome where it holds. -/
def ternary (condition : Meaning) (body : Option Meaning) (alternative : Meaning) : Meaning where
  type := do
    let c ← condition.value
    let thenType ←
      match body with
      | some b => b.type
      | none => do
        let t ← condition.type
        pure (t.map fun u => u.filter Atom.canBeTrue)
    let elseType ← alternative.type
    return choose (c.map Value.truth) thenType elseType
  value := withValue condition.value fun c =>
    if c.truth then
      match body with
      | some b => b.value
      | none => pure (some c)
    else alternative.value

/-- A call gives what the function of this name is known to return. -/
def call (name : Option String) : Meaning where
  type :=
    match name with
    | none => pure none
    | some n => Query.ask fun s => (s.symbols.function? (s.resolveFunction n)).bind (·.returnType)
  value := pure none

def create (name : Option String) : Meaning where
  type :=
    match name with
    | none => pure (some (.prim .object))
    | some n => Query.ask fun s =>
      let c := s.resolveClass n
      some (.single (.named c c.baseName))
  value :=
    match name with
    | none => pure none
    | some n => Query.ask fun s => some (.object (s.resolveClass n))

inductive CastTarget where
  | int | float | string | bool | array | object | unset
  deriving DecidableEq, Repr

def castWords : List (String × CastTarget) :=
  [("int", .int), ("integer", .int), ("float", .float), ("double", .float), ("real", .float),
   ("string", .string), ("binary", .string), ("bool", .bool), ("boolean", .bool), ("array", .array),
   ("object", .object), ("unset", .unset)]

def castTarget? (word : String) : Option CastTarget :=
  castWords.lookup (Text.lower (Text.trim word))

def CastTarget.type : CastTarget → Primitive
  | int => .int
  | float => .float
  | string => .string
  | bool => .bool
  | array => .array
  | object => .object
  | unset => .null

/-- Casts to arrays and objects do not fold. -/
def CastTarget.value (t : CastTarget) (v : Value) : Except Fault (Option Value) :=
  match t with
  | int => v.toInt?.map fun n => n.map .int
  | float => v.toFloat?.map fun x => x.map .float
  | string => v.toString?.map fun t => t.map .string
  | bool => .ok (some (.bool v.truth))
  | unset => .ok (some .null)
  | array | object => .ok none

def cast (word : String) (operand : Meaning) : Meaning where
  type := pure ((castTarget? word).map fun t => .prim t.type)
  value := withValue operand.value fun v =>
    match castTarget? word with
    | none => pure none
    | some t => Query.ofExcept (t.value v)

end Meaning

/-- A key in an array literal or between brackets. -/
inductive IndexKey where
  | absent
  | unknown
  | known (k : ArrayKey)
  deriving DecidableEq, Repr

/-- The key that an expression, if there is one, evaluates to. -/
def Meaning.key : Option Meaning → Query IndexKey
  | none => pure .absent
  | some m => do
    match ← m.value with
    | none => return .unknown
    | some v =>
      match ← Query.ofExcept v.toKey? with
      | none => return .unknown
      | some k => return .known k

/-- The character of a string at a position, which may count from the end. -/
def characterAt? (s : String) (i : Int) : Option Value :=
  let cs := s.toList
  let j := if i < 0 then i + cs.length else i
  if j < 0 then none else cs[j.toNat]?.map fun c => .string (String.ofList [c])

def elementAt? (base index : Value) : Except Fault (Option Value) :=
  match base, index with
  | .array es, i => i.toKey?.map fun k => k.bind fun k => Value.lookup? k es
  | .string s, .int i => .ok (characterAt? s i)
  | _, _ => .ok none

/-- The type of an element of a value of this type; an element may be missing. -/
def Atom.elementType? (key : IndexKey) : Atom → Option TypeUnion
  | .list v | .map _ v => some (v.union (.prim .null))
  | .shape fs =>
    let found :=
      match key with
      | .known k => fs.find? fun (f : ShapeField) => f.key = k
      | _ => none
    match found with
    | some f => some f.type
    | none => some ((TypeUnion.single (.shape fs)).elementTypes.2.union (.prim .null))
  | .primitive .string => some (.prim .string)
  | .primitive .null => some (.prim .null)
  | _ => none

def TypeUnion.elementType? (u : TypeUnion) (key : IndexKey) : Option TypeUnion :=
  match u.atoms.mapM (Atom.elementType? key) with
  | none | some [] => none
  | some us => some (.flatten us)

def Meaning.subscript (base : Meaning) (index : Option Meaning) : Meaning :=
  let value : Query (Option Value) :=
    match index with
    | none => pure none
    | some index => do
      let b ← base.value
      let i ← index.value
      match b, i with
      | some b, some i => Query.ofExcept (elementAt? b i)
      | _, _ => return none
  let type : Query (Option TypeUnion) := do
    match ← value with
    | some v => return some v.type
    | none =>
      match ← base.type, index with
      | some u, some i => do
        let k ← Meaning.key (some i)
        return u.elementType? k
      | _, _ => return none
  ⟨type, value⟩

end PhpFlow
