import PhpFlow.Syntax.Basic

/-!
# Kinds of nodes

Every kind has a tag, used in dumps of trees, and a title, used in messages about kinds. A kind is an
expression, a statement, or a part of some other construct.
-/
namespace PhpFlow

inductive NodeKind where
  | variableName | integer | float | string | boolean | null | name | arrayElement | array
  | assignment | augmentedAssignment | binary | unary | update | parenthesized | conditional
  | functionCall | objectCreation | cast | subscript | sequence | selection | closure
  | unknownExpression | error | comment | program | expressionStatement | block | echo | return_
  | elseIf | else_ | if_ | while_ | do_ | for_ | foreach | case | switch | break_ | continue_
  | empty | catch_ | try_ | parameter | function | method | class_ | namespace_ | useClause | use
  | constElement | const | global | unknownStatement
  deriving DecidableEq, Repr

namespace NodeKind

/-- All kinds in the order in which messages list them. -/
def all : List NodeKind :=
  [variableName, integer, float, string, boolean, null, name, arrayElement, array, assignment,
   augmentedAssignment, binary, unary, update, parenthesized, conditional, functionCall,
   objectCreation, cast, subscript, sequence, selection, closure, unknownExpression, error,
   comment, program, expressionStatement, block, echo, return_, elseIf, else_, if_, while_, do_,
   for_, foreach, case, switch, break_, continue_, empty, catch_, try_, parameter, function,
   method, class_, namespace_, useClause, use, constElement, const, global, unknownStatement]

def tag : NodeKind → String
  | variableName => "variable_name"
  | integer => "integer"
  | float => "float"
  | string => "string"
  | boolean => "boolean"
  | null => "null"
  | name => "name"
  | arrayElement => "array_element_initializer"
  | array => "array_creation_expression"
  | assignment => "assignment_expression"
  | augmentedAssignment => "augmented_assignment_expression"
  | binary => "binary_expression"
  | unary => "unary_op_expression"
  | update => "update_expression"
  | parenthesized => "parenthesized_expression"
  | conditional => "conditional_expression"
  | functionCall => "function_call_expression"
  | objectCreation => "object_creation_expression"
  | cast => "cast_expression"
  | subscript => "subscript_expression"
  | sequence => "sequence_expression"
  | selection => "match_expression"
  | closure => "anonymous_function"
  | unknownExpression => "unknown_expression"
  | error => "ERROR"
  | comment => "comment"
  | program => "program"
  | expressionStatement => "expression_statement"
  | block => "compound_statement"
  | echo => "echo_statement"
  | return_ => "return_statement"
  | elseIf => "else_if_clause"
  | else_ => "else_clause"
  | if_ => "if_statement"
  | while_ => "while_statement"
  | do_ => "do_statement"
  | for_ => "for_statement"
  | foreach => "foreach_statement"
  | case => "case_statement"
  | switch => "switch_statement"
  | break_ => "break_statement"
  | continue_ => "continue_statement"
  | empty => "empty_statement"
  | catch_ => "catch_clause"
  | try_ => "try_statement"
  | parameter => "simple_parameter"
  | function => "function_definition"
  | method => "method_declaration"
  | class_ => "class_declaration"
  | namespace_ => "namespace_definition"
  | useClause => "namespace_use_clause"
  | use => "namespace_use_declaration"
  | constElement => "const_element"
  | const => "const_declaration"
  | global => "global_declaration"
  | unknownStatement => "unknown_statement"

def title : NodeKind → String
  | variableName => "VariableName"
  | integer => "Integer"
  | float => "Float"
  | string => "String"
  | boolean => "Boolean"
  | null => "Null"
  | name => "Name"
  | arrayElement => "ArrayElement"
  | array => "ArrayCreationExpression"
  | assignment => "AssignmentExpression"
  | augmentedAssignment => "AugmentedAssignmentExpression"
  | binary => "BinaryExpression"
  | unary => "UnaryOpExpression"
  | update => "UpdateExpression"
  | parenthesized => "ParenthesizedExpression"
  | conditional => "ConditionalExpression"
  | functionCall => "FunctionCallExpression"
  | objectCreation => "ObjectCreationExpression"
  | cast => "CastExpression"
  | subscript => "SubscriptExpression"
  | sequence => "SequenceExpression"
  | selection => "MatchExpression"
  | closure => "AnonymousFunctionExpression"
  | unknownExpression => "UnknownExpression"
  | error => "ErrorNode"
  | comment => "Comment"
  | program => "Program"
  | expressionStatement => "ExpressionStatement"
  | block => "CompoundStatement"
  | echo => "EchoStatement"
  | return_ => "ReturnStatement"
  | elseIf => "ElseIfClause"
  | else_ => "ElseClause"
  | if_ => "IfStatement"
  | while_ => "WhileStatement"
  | do_ => "DoStatement"
  | for_ => "ForStatement"
  | foreach => "ForeachStatement"
  | case => "CaseClause"
  | switch => "SwitchStatement"
  | break_ => "BreakStatement"
  | continue_ => "ContinueStatement"
  | empty => "EmptyStatement"
  | catch_ => "CatchClause"
  | try_ => "TryStatement"
  | parameter => "SimpleParameter"
  | function => "FunctionDefinition"
  | method => "MethodDeclaration"
  | class_ => "ClassDeclaration"
  | namespace_ => "NamespaceDefinition"
  | useClause => "UseClause"
  | use => "NamespaceUseDeclaration"
  | constElement => "ConstElement"
  | const => "ConstDeclaration"
  | global => "GlobalDeclaration"
  | unknownStatement => "UnknownStatement"

def ofTag? (t : String) : Option NodeKind := all.find? fun k => k.tag = t

def ofTitle? (t : String) : Option NodeKind := all.find? fun k => k.title = t

def isExpression : NodeKind → Bool
  | variableName | integer | float | string | boolean | null | name | array | assignment
  | augmentedAssignment | binary | unary | update | parenthesized | conditional | functionCall
  | objectCreation | cast | subscript | sequence | selection | closure | unknownExpression | error => true
  | _ => false

/-- A part of a construct that is neither expression nor statement. -/
def isClause : NodeKind → Bool
  | arrayElement | elseIf | else_ | case | catch_ | parameter | method | useClause | constElement => true
  | _ => false

def isStatement (k : NodeKind) : Bool := !k.isExpression && !k.isClause

end NodeKind

def Expr.kind : Expr → NodeKind
  | .var _ _ => .variableName
  | .integer _ _ => .integer
  | .float _ _ => .float
  | .string _ _ => .string
  | .boolean _ _ => .boolean
  | .null _ => .null
  | .name _ _ => .name
  | .array _ _ => .array
  | .assign _ _ _ _ => .assignment
  | .augment _ _ _ _ => .augmentedAssignment
  | .binary _ _ _ _ => .binary
  | .unary _ _ _ => .unary
  | .update _ _ _ _ => .update
  | .paren _ _ => .parenthesized
  | .ternary _ _ _ _ => .conditional
  | .call _ _ _ => .functionCall
  | .create _ _ _ => .objectCreation
  | .cast _ _ _ => .cast
  | .subscript _ _ _ => .subscript
  | .sequence _ _ => .sequence
  | .select _ _ _ => .selection
  | .closure _ _ _ => .closure
  | .unknown _ _ _ => .unknownExpression
  | .error _ _ => .error

end PhpFlow
