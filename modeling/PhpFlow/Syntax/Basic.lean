import PhpFlow.Source

/-!
# Syntax trees

Expressions, statements and the clauses that constructs are made of. Every node knows its range in the
source. What the tree does not model is kept as an unknown expression or statement, and what could not
be parsed as an error.
-/
namespace PhpFlow

/-- A variable where nothing but a variable can stand. -/
structure VariableName where
  range : Range
  name : String
  deriving DecidableEq, Repr

structure UseClause where
  range : Range
  name : String
  shortName : Option String
  deriving DecidableEq, Repr

mutual

inductive Expr where
  | var (r : Range) (name : String)
  | integer (r : Range) (value : Int)
  | float (r : Range) (value : Float)
  /-- A string literal; one with variables in it has no value. -/
  | string (r : Range) (value : Option String)
  | boolean (r : Range) (value : Bool)
  | null (r : Range)
  | name (r : Range) (name : String)
  | array (r : Range) (elements : List Element)
  | assign (r : Range) (left right : Expr) (byRef : Bool)
  /-- An assignment such as `$a += 1`, with the operator without its equals sign. -/
  | augment (r : Range) (left : Expr) (op : String) (right : Expr)
  | binary (r : Range) (left : Expr) (op : String) (right : Expr)
  | unary (r : Range) (op : String) (operand : Expr)
  | update (r : Range) (op : String) (argument : Expr) (before : Bool)
  | paren (r : Range) (inner : Expr)
  /-- A choice; `a ?: b` has no body. -/
  | ternary (r : Range) (condition : Expr) (body : Option Expr) (alternative : Expr)
  | call (r : Range) (function : Expr) (arguments : List Expr)
  | create (r : Range) (className : Expr) (arguments : List Expr)
  | cast (r : Range) (type : String) (value : Expr)
  /-- An element of an array; `$a[]` has no index. -/
  | subscript (r : Range) (base : Expr) (index : Option Expr)
  | sequence (r : Range) (expressions : List Expr)
  | select (r : Range) (subject : Expr) (arms : List Stmt)
  | closure (r : Range) (parameters : List Parameter) (body : Option Stmt)
  | unknown (r : Range) (grammarKind text : String)
  | error (r : Range) (text : String)

structure Element where
  range : Range
  value : Expr
  key : Option Expr
  spread : Bool
  byRef : Bool

structure Parameter where
  range : Range
  name : String
  type : Option String
  default : Option Expr
  variadic : Bool
  byRef : Bool

structure ElseIf where
  range : Range
  condition : Expr
  body : Stmt

structure Else where
  range : Range
  body : Stmt

/-- An arm of a switch; the default arm has no value. -/
structure Case where
  range : Range
  value : Option Expr
  statements : List Stmt

structure Catch where
  range : Range
  types : List String
  body : Stmt
  binding : Option VariableName

structure Constant where
  range : Range
  name : String
  value : Expr

/-- What functions and methods have in common. -/
structure Function where
  range : Range
  name : String
  parameters : List Parameter
  body : Option Stmt
  returnType : Option String
  doc : Option String

structure Method where
  function : Function
  isStatic : Bool

/-- A part of some construct. One that stands by itself among statements is analysed as the sequence of
its children. -/
inductive Clause where
  | element (e : Element)
  | parameter (p : Parameter)
  | elseIf (c : ElseIf)
  | else_ (c : Else)
  | case (c : Case)
  | catch_ (c : Catch)
  | use (c : UseClause)
  | constant (c : Constant)

inductive Stmt where
  | comment (r : Range) (text : String)
  | program (r : Range) (statements : List Stmt)
  | expression (r : Range) (e : Expr)
  | block (r : Range) (statements : List Stmt)
  | echo (r : Range) (arguments : List Expr)
  | return_ (r : Range) (e : Option Expr)
  | ifElse (r : Range) (condition : Expr) (body : Stmt) (elseIfs : List ElseIf) (else_ : Option Else)
  | while_ (r : Range) (condition : Expr) (body : Stmt)
  | doWhile (r : Range) (body : Stmt) (condition : Expr)
  | for_ (r : Range) (initial conditions increments : List Expr) (body : List Stmt)
  | foreach (r : Range) (subject value : Expr) (body : Stmt) (key : Option Expr) (byRef : Bool)
  | switch (r : Range) (subject : Expr) (cases : List Case)
  | break_ (r : Range)
  | continue_ (r : Range)
  | empty (r : Range)
  | try_ (r : Range) (body : Stmt) (catches : List Catch) (finally_ : Option Stmt)
  | function (f : Function)
  | class_ (r : Range) (name : String) (parent : Option String) (interfaces : List String)
      (methods : List Method) (isInterface : Bool)
  | namespace_ (r : Range) (name : String) (body : Option Stmt)
  | use (r : Range) (clauses : List UseClause)
  | const (r : Range) (constants : List Constant)
  | global (r : Range) (names : List VariableName)
  | unknown (r : Range) (grammarKind text : String)
  /-- An expression that is no statement, as a syntax error leaves it. -/
  | bare (e : Expr)
  | clause (c : Clause)
  | method (m : Method)

end

namespace Expr

def range : Expr → Range
  | var r _ | integer r _ | float r _ | string r _ | boolean r _ | null r | name r _ | array r _
  | assign r _ _ _ | augment r _ _ _ | binary r _ _ _ | unary r _ _ | update r _ _ _ | paren r _
  | ternary r _ _ _ | call r _ _ | create r _ _ | cast r _ _ | subscript r _ _ | sequence r _
  | select r _ _ | closure r _ _ | unknown r _ _ | error r _ => r

/-- An expression without the parentheses around it. -/
def unwrap : Expr → Expr
  | paren _ e => e.unwrap
  | e => e

def variableName? (e : Expr) : Option String :=
  match e.unwrap with
  | var _ n => some n
  | _ => none

def name? (e : Expr) : Option String :=
  match e.unwrap with
  | name _ n => some n
  | _ => none

/-- The variable at the root of an assignment target such as `$a[0][]`. -/
def root? : Expr → Option VariableName
  | var r n => some ⟨r, n⟩
  | paren _ e => e.root?
  | subscript _ base _ => base.root?
  | _ => none

end Expr

def Clause.range : Clause → Range
  | element e => e.range
  | parameter p => p.range
  | elseIf c => c.range
  | else_ c => c.range
  | case c => c.range
  | catch_ c => c.range
  | use c => c.range
  | constant c => c.range

namespace Stmt

def range : Stmt → Range
  | comment r _ | program r _ | expression r _ | block r _ | echo r _ | return_ r _
  | ifElse r _ _ _ _ | while_ r _ _ | doWhile r _ _ | for_ r _ _ _ _ | foreach r _ _ _ _ _
  | switch r _ _ | break_ r | continue_ r | empty r | try_ r _ _ _ | class_ r _ _ _ _ _
  | namespace_ r _ _ | use r _ | const r _ | global r _ | unknown r _ _ => r
  | function f => f.range
  | bare e => e.range
  | clause c => c.range
  | method m => m.function.range

end Stmt

end PhpFlow
