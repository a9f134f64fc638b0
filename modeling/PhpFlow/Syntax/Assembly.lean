import PhpFlow.Syntax.Outline

/-!
# Trees from outlines

An outline holds all there is to a node, so the node can be put together again. A field that is missing
has the value that is usual for it: nothing, false, or an empty list.
-/
namespace PhpFlow

/-- The value of a field whose nodes have been put together. -/
inductive Part where
  | absent
  | text (s : String)
  | integer (n : Int)
  | float (x : Float)
  | flag (b : Bool)
  | texts (ss : List String)
  | node (s : Stmt)
  | nodes (ss : List Stmt)

/-- The fields of a node by their names. -/
abbrev Parts := List (String × Part)

def Stmt.toExpr : Stmt → Expr
  | .bare e => e
  | s => .error s.range ""

def Stmt.element? : Stmt → Option Element
  | .clause (.element e) => some e
  | _ => none

def Stmt.parameter? : Stmt → Option Parameter
  | .clause (.parameter p) => some p
  | _ => none

def Stmt.elseIf? : Stmt → Option ElseIf
  | .clause (.elseIf c) => some c
  | _ => none

def Stmt.else? : Stmt → Option Else
  | .clause (.else_ c) => some c
  | _ => none

def Stmt.case? : Stmt → Option Case
  | .clause (.case c) => some c
  | _ => none

def Stmt.catch? : Stmt → Option Catch
  | .clause (.catch_ c) => some c
  | _ => none

def Stmt.use? : Stmt → Option UseClause
  | .clause (.use c) => some c
  | _ => none

def Stmt.constant? : Stmt → Option Constant
  | .clause (.constant c) => some c
  | _ => none

def Stmt.method? : Stmt → Option Method
  | .method m => some m
  | _ => none

def Stmt.variableName? : Stmt → Option VariableName
  | .bare (.var r n) => some ⟨r, n⟩
  | _ => none

namespace Parts

def text? (ps : Parts) (n : String) : Option String :=
  match ps.lookup n with
  | some (.text s) => some s
  | _ => none

def text (ps : Parts) (n : String) : String := (ps.text? n).getD ""

def texts (ps : Parts) (n : String) : List String :=
  match ps.lookup n with
  | some (.texts ss) => ss
  | _ => []

def integer (ps : Parts) (n : String) : Int :=
  match ps.lookup n with
  | some (.integer k) => k
  | _ => 0

def float (ps : Parts) (n : String) : Float :=
  match ps.lookup n with
  | some (.float x) => x
  | _ => 0

def flag (ps : Parts) (n : String) : Bool :=
  match ps.lookup n with
  | some (.flag b) => b
  | _ => false

def node? (ps : Parts) (n : String) : Option Stmt :=
  match ps.lookup n with
  | some (.node s) => some s
  | _ => none

def node (ps : Parts) (n : String) : Stmt := (ps.node? n).getD (.bare (.error .zero ""))

def nodes (ps : Parts) (n : String) : List Stmt :=
  match ps.lookup n with
  | some (.nodes ss) => ss
  | _ => []

def expr (ps : Parts) (n : String) : Expr := (ps.node n).toExpr

def expr? (ps : Parts) (n : String) : Option Expr := (ps.node? n).map Stmt.toExpr

def exprs (ps : Parts) (n : String) : List Expr := (ps.nodes n).map Stmt.toExpr

def parameters (ps : Parts) : List Parameter := (ps.nodes "parameters").filterMap Stmt.parameter?

def function (ps : Parts) (r : Range) : Function :=
  ⟨r, ps.text "name", ps.parameters, ps.node? "body", ps.text? "return_type", ps.text? "doc_comment"⟩

end Parts

def Stmt.assemble (k : NodeKind) (r : Range) (ps : Parts) : Stmt :=
  match k with
  | .variableName => .bare (.var r (ps.text "name"))
  | .integer => .bare (.integer r (ps.integer "value"))
  | .float => .bare (.float r (ps.float "value"))
  | .string => .bare (.string r (ps.text? "value"))
  | .boolean => .bare (.boolean r (ps.flag "value"))
  | .null => .bare (.null r)
  | .name => .bare (.name r (ps.text "name"))
  | .array => .bare (.array r ((ps.nodes "elements").filterMap Stmt.element?))
  | .assignment => .bare (.assign r (ps.expr "left") (ps.expr "right") (ps.flag "by_ref"))
  | .augmentedAssignment =>
    .bare (.augment r (ps.expr "left") (ps.text "operator") (ps.expr "right"))
  | .binary => .bare (.binary r (ps.expr "left") (ps.text "operator") (ps.expr "right"))
  | .unary => .bare (.unary r (ps.text "operator") (ps.expr "operand"))
  | .update => .bare (.update r (ps.text "operator") (ps.expr "argument") (ps.flag "prefix"))
  | .parenthesized => .bare (.paren r (ps.expr "expression"))
  | .conditional =>
    .bare (.ternary r (ps.expr "condition") (ps.expr? "body") (ps.expr "alternative"))
  | .functionCall => .bare (.call r (ps.expr "function") (ps.exprs "arguments"))
  | .objectCreation => .bare (.create r (ps.expr "class_name") (ps.exprs "arguments"))
  | .cast => .bare (.cast r (ps.text "cast_type") (ps.expr "value"))
  | .subscript => .bare (.subscript r (ps.expr "base") (ps.expr? "index"))
  | .sequence => .bare (.sequence r (ps.exprs "expressions"))
  | .selection => .bare (.select r (ps.expr "subject") (ps.nodes "arms"))
  | .closure => .bare (.closure r ps.parameters (ps.node? "body"))
  | .unknownExpression => .bare (.unknown r (ps.text "grammar_kind") (ps.text "text"))
  | .error => .bare (.error r (ps.text "text"))
  | .arrayElement =>
    .clause (.element ⟨r, ps.expr "value", ps.expr? "key", ps.flag "spread", ps.flag "by_ref"⟩)
  | .parameter =>
    .clause (.parameter
      ⟨r, ps.text "name", ps.text? "type_text", ps.expr? "default", ps.flag "variadic",
        ps.flag "by_ref"⟩)
  | .elseIf => .clause (.elseIf ⟨r, ps.expr "condition", ps.node "body"⟩)
  | .else_ => .clause (.else_ ⟨r, ps.node "body"⟩)
  | .case => .clause (.case ⟨r, ps.expr? "value", ps.nodes "statements"⟩)
  | .catch_ =>
    .clause (.catch_
      ⟨r, ps.texts "types", ps.node "body", (ps.node? "variable").bind Stmt.variableName?⟩)
  | .useClause => .clause (.use ⟨r, ps.text "name", ps.text? "alias"⟩)
  | .constElement => .clause (.constant ⟨r, ps.text "name", ps.expr "value"⟩)
  | .comment => .comment r (ps.text "text")
  | .program => .program r (ps.nodes "statements")
  | .expressionStatement => .expression r (ps.expr "expression")
  | .block => .block r (ps.nodes "statements")
  | .echo => .echo r (ps.exprs "arguments")
  | .return_ => .return_ r (ps.expr? "expression")
  | .if_ =>
    .ifElse r (ps.expr "condition") (ps.node "body") ((ps.nodes "else_ifs").filterMap Stmt.elseIf?)
      ((ps.node? "else_clause").bind Stmt.else?)
  | .while_ => .while_ r (ps.expr "condition") (ps.node "body")
  | .do_ => .doWhile r (ps.node "body") (ps.expr "condition")
  | .for_ =>
    .for_ r (ps.exprs "initialize") (ps.exprs "condition") (ps.exprs "increment") (ps.nodes "body")
  | .foreach =>
    .foreach r (ps.expr "iterable") (ps.expr "value") (ps.node "body") (ps.expr? "key")
      (ps.flag "by_ref")
  | .switch => .switch r (ps.expr "subject") ((ps.nodes "cases").filterMap Stmt.case?)
  | .break_ => .break_ r
  | .continue_ => .continue_ r
  | .empty => .empty r
  | .try_ =>
    .try_ r (ps.node "body") ((ps.nodes "catches").filterMap Stmt.catch?) (ps.node? "finally_body")
  | .function => .function (ps.function r)
  | .method => .method ⟨ps.function r, ps.flag "is_static"⟩
  | .class_ =>
    .class_ r (ps.text "name") (ps.text? "parent") (ps.texts "interfaces")
      ((ps.nodes "methods").filterMap Stmt.method?) (ps.flag "is_interface")
  | .namespace_ => .namespace_ r (ps.text "name") (ps.node? "body")
  | .use => .use r ((ps.nodes "clauses").filterMap Stmt.use?)
  | .const => .const r ((ps.nodes "elements").filterMap Stmt.constant?)
  | .global => .global r ((ps.nodes "variables").filterMap Stmt.variableName?)
  | .unknownStatement => .unknown r (ps.text "grammar_kind") (ps.text "text")

mutual

def Outline.tree : Outline → Stmt
  | ⟨k, r, fs⟩ => .assemble k r (fieldParts fs)

def fieldParts : List (String × FieldValue) → Parts
  | [] => []
  | (n, v) :: fs => (n, v.part) :: fieldParts fs

def FieldValue.part : FieldValue → Part
  | .absent => .absent
  | .text s => .text s
  | .integer n => .integer n
  | .float x => .float x
  | .flag b => .flag b
  | .texts ss => .texts ss
  | .node o => .node o.tree
  | .nodes os => .nodes (trees os)

def trees : List Outline → List Stmt
  | [] => []
  | o :: os => o.tree :: trees os

end

end PhpFlow
