import PhpFlow.Concrete.Basic
import PhpFlow.Syntax.Basic
import PhpFlow.Text.Quoted

/-!
# Readings

Every concrete node can be read as a statement and as an expression. Its reading holds both, so that the
node around it takes the one it needs. A node that lacks a part the grammar always provides has no
reading but an error.
-/
namespace PhpFlow

inductive BuildError where
  /-- A part is missing or of the wrong type. -/
  | unexpected (range : Range) (expected found : String)
  | integerTooLarge
  | notFloat (text : String)
  /-- A reference or a pair with nothing in it. -/
  | emptyBinding
  deriving DecidableEq, Repr

def BuildError.message : BuildError → String
  | unexpected range expected found =>
    "expected " ++ expected ++ ", found " ++ found ++ " at " ++ range.toText
  | integerTooLarge => "int too large to convert to float"
  | notFloat text => "could not convert string to float: " ++ Text.quote text
  | emptyBinding => "list index out of range"

structure Mark where
  type : String
  range : Range
  text : String
  named : Bool
  missing : Bool
  field : Option String
  /-- The doc comment right before the node. -/
  doc : Option String

structure Reading where
  mark : Mark
  children : List Reading
  stmt : Except BuildError Stmt
  expr : Except BuildError Expr

namespace Reading

def type (r : Reading) : String := r.mark.type

def range (r : Reading) : Range := r.mark.range

def text (r : Reading) : String := r.mark.text

def isNamed (r : Reading) : Bool := r.mark.named

def isPart (r : Reading) : Bool := r.isNamed && r.type != "comment"

/-- The types of nodes around and between pieces of code, which are no statements. -/
def noise : List String := ["php_tag", "text_interpolation", "php_end_tag", "text", "?>"]

def isStatement (r : Reading) : Bool := r.isNamed && !noise.contains r.type

def parts (r : Reading) : List Reading := r.children.filter isPart

def field? (r : Reading) (f : String) : Option Reading := r.children.find? fun c => c.mark.field = some f

def childrenBesides (r : Reading) (f : String) : List Reading :=
  r.children.eraseP fun c => c.mark.field = some f

def missing (r : Reading) (expected : String) : BuildError := .unexpected r.range expected "nothing"

/-- A field that the grammar always provides. -/
def required (r : Reading) (f : String) : Except BuildError Reading :=
  match r.field? f with
  | some c => .ok c
  | none => .error (r.missing (r.type ++ "." ++ f))

/-- The first of the parts, of which the grammar provides at least one. -/
def firstOf (r : Reading) (expected : String) : Except BuildError Reading :=
  match r.parts with
  | c :: _ => .ok c
  | [] => .error (r.missing expected)

def exprOf (r : Reading) : Option Reading → Except BuildError Expr
  | some c => c.expr
  | none => .error (r.missing "expression")

def optionalExpr : Option Reading → Except BuildError (Option Expr)
  | none => .ok none
  | some c => c.expr.map some

def statements (cs : List Reading) : Except BuildError (List Stmt) :=
  (cs.filter isStatement).mapM (·.stmt)

def block (r : Reading) : Except BuildError Stmt :=
  (statements r.children).map fun ss => .block r.range ss

/-- A body; one that is missing is an empty statement. -/
def body : Option Reading → Except BuildError Stmt
  | none => .ok (.empty .zero)
  | some c => c.stmt

def blockBody (r : Reading) : Except BuildError Stmt :=
  r.stmt.map fun s =>
    match s with
    | .block b ss => .block b ss
    | s => .block r.range [s]

def optionalBlock : Option Reading → Except BuildError (Option Stmt)
  | none => .ok none
  | some c => c.blockBody.map some

/-- The operator of an operation: in its field, or the first token. -/
def operator (r : Reading) : Except BuildError String :=
  match r.field? "operator" with
  | some op => .ok op.text
  | none =>
    match r.children.find? fun c => !c.isNamed with
    | some c => .ok c.type
    | none => .error (r.missing "operator")

def variableName (r : Reading) : VariableName :=
  ⟨r.range, String.ofList (r.text.toList.dropWhile (· = '$'))⟩

end Reading

/-- The members of a sequence; any other expression is its own member. -/
def Expr.members : Expr → List Expr
  | .sequence _ es => es
  | e => [e]

/-- The statements of a block; any other statement is by itself. -/
def Stmt.members : Stmt → List Stmt
  | .block _ ss => ss
  | s => [s]

end PhpFlow
