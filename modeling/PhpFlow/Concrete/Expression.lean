import PhpFlow.Concrete.Literal
import PhpFlow.Concrete.Reading

/-!
# Reading expressions

For every type of node there is a function from the readings of its children to an expression. A node of
any other type is an unknown expression, and a missing one is an error.
-/
namespace PhpFlow.Reading

def parameter (r : Reading) : Except BuildError Parameter := do
  let name ← r.required "name"
  let default ← optionalExpr (r.field? "default_value")
  return ⟨r.range, name.variableName.name, (r.field? "type").map (·.text), default,
    r.type == "variadic_parameter",
    (r.field? "reference_modifier").isSome || r.children.any fun c => c.type == "reference_modifier"⟩

def parameterTypes : List String :=
  ["simple_parameter", "variadic_parameter", "property_promotion_parameter"]

def parameters : Option Reading → Except BuildError (List Parameter)
  | none => .ok []
  | some r => (r.parts.filter fun c => parameterTypes.contains c.type).mapM parameter

/-- An integer literal; one beyond 64 bits is a double, and one with wrong digits is an error. -/
def integer (r : Reading) : Except BuildError Expr :=
  match Literal.int? r.text with
  | none => .ok (.error r.range r.text)
  | some n =>
    if Number.maxInt < n then
      match Number.ofInt? n with
      | some x => .ok (.float r.range x)
      | none => .error .integerTooLarge
    else .ok (.integer r.range n)

def float (r : Reading) : Except BuildError Expr :=
  match Literal.float? r.text with
  | some x => .ok (.float r.range x)
  | none => .error (.notFloat (String.ofList (r.text.toList.filter (· ≠ '_'))))

/-- What stands between the first quote and the last character. -/
def quotedBody (quote : Char) (cs : List Char) : List Char :=
  ((cs.dropWhile (· ≠ quote)).drop 1).dropLast

/-- The nodes in a string without variables. -/
def literalParts : List String := ["string_content", "string_value", "escape_sequence", "string"]

/-- A string in double quotes. It has no value if there are variables in it. -/
def encapsed (r : Reading) : Expr :=
  let cs := r.text.toList
  if (r.children.any fun c => c.isNamed && !literalParts.contains c.type) || cs.length < 2 ||
      cs.getLast? ≠ some '"' then .string r.range none
  else .string r.range (some (String.ofList (Literal.doubleQuoted (quotedBody '"' cs))))

def string (r : Reading) : Expr :=
  let cs := r.text.toList
  match cs with
  | '\'' :: _ | 'b' :: '\'' :: _ | 'B' :: '\'' :: _ =>
    .string r.range (some (String.ofList (Literal.singleQuoted (quotedBody '\'' cs))))
  | _ => r.encapsed

def binary (r : Reading) : Except BuildError Expr := do
  let left ← r.required "left"
  let right ← r.required "right"
  let a ← left.expr
  let op ← r.operator
  let b ← right.expr
  return .binary r.range a op b

def unary (r : Reading) : Except BuildError Expr := do
  match r.parts.getLast? with
  | none => throw (r.missing "unary operand")
  | some operand => do
    let op ← r.operator
    let a ← operand.expr
    return .unary r.range op a

/-- The text holds two plus signs in a row. -/
def countsUp : List Char → Bool
  | '+' :: '+' :: _ => true
  | _ :: cs => countsUp cs
  | [] => false

def update (r : Reading) : Except BuildError Expr := do
  let operand ← r.firstOf "update operand"
  let a ← operand.expr
  let before := (r.children.head?.map fun c => !c.isNamed).getD false
  return .update r.range (if countsUp r.text.toList then "++" else "--") a before

def parenthesized (r : Reading) : Except BuildError Expr := do
  let inner ← r.firstOf "parenthesized expression"
  let a ← inner.expr
  return .paren r.range a

def assignment (r : Reading) (byRef : Bool) : Except BuildError Expr := do
  let left ← r.required "left"
  let a ← left.expr
  let right ← r.required "right"
  let b ← right.expr
  return .assign r.range a b byRef

def augmented (r : Reading) : Except BuildError Expr := do
  let left ← r.required "left"
  let right ← r.required "right"
  let op ← r.operator
  let a ← left.expr
  let b ← right.expr
  return .augment r.range a (String.ofList (Text.dropEnd (· = '=') op.toList)) b

def conditional (r : Reading) : Except BuildError Expr := do
  let condition ← r.required "condition"
  let c ← condition.expr
  let b ← optionalExpr (r.field? "body")
  let alternative ← r.required "alternative"
  let a ← alternative.expr
  return .ternary r.range c b a

def argument? (r : Reading) : Option Reading := if r.type == "argument" then r.parts.getLast? else some r

def arguments : Option Reading → Except BuildError (List Expr)
  | none => .ok []
  | some r => (r.parts.filterMap argument?).mapM (·.expr)

def call (r : Reading) : Except BuildError Expr := do
  let function ← r.required "function"
  let f ← function.expr
  let as ← arguments (r.field? "arguments")
  return .call r.range f as

def unknown (r : Reading) : Expr := .unknown r.range r.type r.text

/-- A new object; anonymous classes are not covered. -/
def creation (r : Reading) : Except BuildError Expr :=
  match r.parts with
  | [] => .ok r.unknown
  | c :: cs =>
    if c.type == "anonymous_class" then .ok r.unknown
    else do
      let className ← c.expr
      let as ← arguments ((c :: cs).find? fun c => c.type == "arguments")
      return .create r.range className as

/-- An element of an array literal, if the node has the shape of one. -/
def element? (r : Reading) : Except BuildError (Option Element) :=
  let byRef := r.children.any fun c => c.type == "&" || c.type == "by_ref"
  match r.parts with
  | [v] =>
    if v.type == "variadic_unpacking" then do
      let e ← r.exprOf v.parts.getLast?
      return some ⟨r.range, e, none, true, false⟩
    else if v.type == "by_ref" then
      match v.parts.getLast? with
      | none => .error .emptyBinding
      | some inner => do
        let e ← inner.expr
        return some ⟨r.range, e, none, false, true⟩
    else do
      let e ← v.expr
      return some ⟨r.range, e, none, false, byRef⟩
  | [k, v] => do
    let e ← v.expr
    let key ← k.expr
    return some ⟨r.range, e, some key, false, byRef⟩
  | _ => .ok none

def array (r : Reading) : Except BuildError Expr := do
  let es ← (r.parts.filter fun c => c.type == "array_element_initializer").mapM element?
  return .array r.range (es.filterMap id)

def cast (r : Reading) : Except BuildError Expr := do
  let type := r.field? "type" <|> r.parts.find? fun c => c.type == "cast_type"
  let a ← r.exprOf (r.field? "value" <|> r.parts.getLast?)
  return .cast r.range ((type.map (·.text)).getD "") a

def subscript (r : Reading) : Except BuildError Expr := do
  match r.parts with
  | [] => throw (r.missing "subscript base")
  | base :: rest => do
    let index ← optionalExpr rest.head?
    let b ← base.expr
    return .subscript r.range b index

/-- Sequences in a sequence are taken apart. -/
def sequence (r : Reading) : Except BuildError Expr := do
  let es ← r.parts.mapM (·.expr)
  return .sequence r.range (es.flatMap Expr.members)

def selection (r : Reading) : Except BuildError Expr := do
  let e ← r.exprOf (r.field? "condition" <|> r.parts.head?)
  return .select r.range e []

/-- An anonymous function; only a block is taken for its body. -/
def closure (r : Reading) : Except BuildError Expr := do
  let body ← optionalBlock ((r.field? "body").filter fun b => b.type == "compound_statement")
  let ps ← parameters (r.field? "parameters")
  return .closure r.range ps body

def toExpr (r : Reading) : Except BuildError Expr :=
  if r.mark.missing then .ok (.error r.range r.text)
  else
    match r.type with
    | "variable_name" => .ok (.var r.range r.variableName.name)
    | "name" | "qualified_name" => .ok (.name r.range r.text)
    | "integer" => r.integer
    | "float" => r.float
    | "string" => .ok r.string
    | "encapsed_string" => .ok r.encapsed
    | "boolean" => .ok (.boolean r.range (Text.lower r.text == "true"))
    | "null" => .ok (.null r.range)
    | "binary_expression" => r.binary
    | "unary_op_expression" => r.unary
    | "update_expression" => r.update
    | "parenthesized_expression" => r.parenthesized
    | "assignment_expression" => r.assignment (r.children.any fun c => c.type == "&")
    | "reference_assignment_expression" => r.assignment true
    | "augmented_assignment_expression" => r.augmented
    | "conditional_expression" => r.conditional
    | "function_call_expression" => r.call
    | "object_creation_expression" => r.creation
    | "array_creation_expression" => r.array
    | "cast_expression" => r.cast
    | "subscript_expression" => r.subscript
    | "sequence_expression" => r.sequence
    | "match_expression" => r.selection
    | "anonymous_function" | "anonymous_function_creation_expression" | "arrow_function" => r.closure
    | "ERROR" => .ok (.error r.range r.text)
    | _ => .ok r.unknown

end PhpFlow.Reading
