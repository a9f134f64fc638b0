import PhpFlow.Syntax.Kind

/-!
# Outlines

The outline of a node shows it without regard to its construct: a kind, a range, and named fields in a
fixed order. What is said of nodes in general, such as their children and their dumps, is said of
outlines.
-/
namespace PhpFlow

mutual

inductive FieldValue where
  | absent
  | text (s : String)
  | integer (n : Int)
  | float (x : Float)
  | flag (b : Bool)
  | texts (ss : List String)
  | node (o : Outline)
  | nodes (os : List Outline)

structure Outline where
  kind : NodeKind
  range : Range
  fields : List (String × FieldValue)

end

instance : Inhabited FieldValue := ⟨.absent⟩

instance : Inhabited Outline := ⟨⟨.empty, .zero, []⟩⟩

def FieldValue.ofText? : Option String → FieldValue
  | none => absent
  | some s => text s

def VariableName.outline (v : VariableName) : Outline :=
  ⟨.variableName, v.range, [("name", .text v.name)]⟩

def UseClause.outline (c : UseClause) : Outline :=
  ⟨.useClause, c.range, [("name", .text c.name), ("alias", .ofText? c.shortName)]⟩

mutual

def Expr.outline : Expr → Outline
  | .var r n => ⟨.variableName, r, [("name", .text n)]⟩
  | .integer r n => ⟨.integer, r, [("value", .integer n)]⟩
  | .float r x => ⟨.float, r, [("value", .float x)]⟩
  | .string r s => ⟨.string, r, [("value", .ofText? s)]⟩
  | .boolean r b => ⟨.boolean, r, [("value", .flag b)]⟩
  | .null r => ⟨.null, r, []⟩
  | .name r n => ⟨.name, r, [("name", .text n)]⟩
  | .array r es => ⟨.array, r, [("elements", .nodes (elementOutlines es))]⟩
  | .assign r a b byRef =>
    ⟨.assignment, r, [("left", .node a.outline), ("right", .node b.outline), ("by_ref", .flag byRef)]⟩
  | .augment r a op b =>
    ⟨.augmentedAssignment, r,
      [("left", .node a.outline), ("operator", .text op), ("right", .node b.outline)]⟩
  | .binary r a op b =>
    ⟨.binary, r, [("left", .node a.outline), ("operator", .text op), ("right", .node b.outline)]⟩
  | .unary r op a => ⟨.unary, r, [("operator", .text op), ("operand", .node a.outline)]⟩
  | .update r op a before =>
    ⟨.update, r,
      [("operator", .text op), ("argument", .node a.outline), ("prefix", .flag before)]⟩
  | .paren r a => ⟨.parenthesized, r, [("expression", .node a.outline)]⟩
  | .ternary r c b a =>
    ⟨.conditional, r,
      [("condition", .node c.outline), ("body", exprField b), ("alternative", .node a.outline)]⟩
  | .call r f as =>
    ⟨.functionCall, r, [("function", .node f.outline), ("arguments", .nodes (exprOutlines as))]⟩
  | .create r c as =>
    ⟨.objectCreation, r, [("class_name", .node c.outline), ("arguments", .nodes (exprOutlines as))]⟩
  | .cast r t a => ⟨.cast, r, [("cast_type", .text t), ("value", .node a.outline)]⟩
  | .subscript r b i => ⟨.subscript, r, [("base", .node b.outline), ("index", exprField i)]⟩
  | .sequence r es => ⟨.sequence, r, [("expressions", .nodes (exprOutlines es))]⟩
  | .select r e arms =>
    ⟨.selection, r, [("subject", .node e.outline), ("arms", .nodes (stmtOutlines arms))]⟩
  | .closure r ps b =>
    ⟨.closure, r, [("parameters", .nodes (parameterOutlines ps)), ("body", stmtField b)]⟩
  | .unknown r k t => ⟨.unknownExpression, r, [("grammar_kind", .text k), ("text", .text t)]⟩
  | .error r t => ⟨.error, r, [("text", .text t)]⟩

def Element.outline : Element → Outline
  | ⟨r, v, k, spread, byRef⟩ =>
    ⟨.arrayElement, r,
      [("value", .node v.outline), ("key", exprField k), ("spread", .flag spread),
       ("by_ref", .flag byRef)]⟩

def Parameter.outline : Parameter → Outline
  | ⟨r, n, t, d, variadic, byRef⟩ =>
    ⟨.parameter, r,
      [("name", .text n), ("type_text", .ofText? t), ("default", exprField d),
       ("variadic", .flag variadic), ("by_ref", .flag byRef)]⟩

def ElseIf.outline : ElseIf → Outline
  | ⟨r, c, b⟩ => ⟨.elseIf, r, [("condition", .node c.outline), ("body", .node b.outline)]⟩

def Else.outline : Else → Outline
  | ⟨r, b⟩ => ⟨.else_, r, [("body", .node b.outline)]⟩

def Case.outline : Case → Outline
  | ⟨r, v, ss⟩ => ⟨.case, r, [("value", exprField v), ("statements", .nodes (stmtOutlines ss))]⟩

def Catch.outline : Catch → Outline
  | ⟨r, ts, b, v⟩ =>
    ⟨.catch_, r,
      [("types", .texts ts), ("body", .node b.outline),
       ("variable", (v.map fun v => FieldValue.node v.outline).getD .absent)]⟩

def Constant.outline : Constant → Outline
  | ⟨r, n, v⟩ => ⟨.constElement, r, [("name", .text n), ("value", .node v.outline)]⟩

def Function.fields : Function → List (String × FieldValue)
  | ⟨_, n, ps, b, t, d⟩ =>
    [("name", .text n), ("parameters", .nodes (parameterOutlines ps)), ("body", stmtField b),
     ("return_type", .ofText? t), ("doc_comment", .ofText? d)]

def Method.outline : Method → Outline
  | ⟨f, isStatic⟩ => ⟨.method, f.range, f.fields ++ [("is_static", .flag isStatic)]⟩

def Clause.outline : Clause → Outline
  | .element e => e.outline
  | .parameter p => p.outline
  | .elseIf c => c.outline
  | .else_ c => c.outline
  | .case c => c.outline
  | .catch_ c => c.outline
  | .use c => c.outline
  | .constant c => c.outline

def Stmt.outline : Stmt → Outline
  | .comment r t => ⟨.comment, r, [("text", .text t)]⟩
  | .program r ss => ⟨.program, r, [("statements", .nodes (stmtOutlines ss))]⟩
  | .expression r e => ⟨.expressionStatement, r, [("expression", .node e.outline)]⟩
  | .block r ss => ⟨.block, r, [("statements", .nodes (stmtOutlines ss))]⟩
  | .echo r es => ⟨.echo, r, [("arguments", .nodes (exprOutlines es))]⟩
  | .return_ r e => ⟨.return_, r, [("expression", exprField e)]⟩
  | .ifElse r c b eis e =>
    ⟨.if_, r,
      [("condition", .node c.outline), ("body", .node b.outline),
       ("else_ifs", .nodes (elseIfOutlines eis)), ("else_clause", elseField e)]⟩
  | .while_ r c b => ⟨.while_, r, [("condition", .node c.outline), ("body", .node b.outline)]⟩
  | .doWhile r b c => ⟨.do_, r, [("body", .node b.outline), ("condition", .node c.outline)]⟩
  | .for_ r is cs ns b =>
    ⟨.for_, r,
      [("initialize", .nodes (exprOutlines is)), ("condition", .nodes (exprOutlines cs)),
       ("increment", .nodes (exprOutlines ns)), ("body", .nodes (stmtOutlines b))]⟩
  | .foreach r i v b k byRef =>
    ⟨.foreach, r,
      [("iterable", .node i.outline), ("value", .node v.outline), ("body", .node b.outline),
       ("key", exprField k), ("by_ref", .flag byRef)]⟩
  | .switch r e cs => ⟨.switch, r, [("subject", .node e.outline), ("cases", .nodes (caseOutlines cs))]⟩
  | .break_ r => ⟨.break_, r, []⟩
  | .continue_ r => ⟨.continue_, r, []⟩
  | .empty r => ⟨.empty, r, []⟩
  | .try_ r b cs f =>
    ⟨.try_, r,
      [("body", .node b.outline), ("catches", .nodes (catchOutlines cs)),
       ("finally_body", stmtField f)]⟩
  | .function f => ⟨.function, f.range, f.fields⟩
  | .class_ r n p is ms isInterface =>
    ⟨.class_, r,
      [("name", .text n), ("parent", .ofText? p), ("interfaces", .texts is),
       ("methods", .nodes (methodOutlines ms)), ("is_interface", .flag isInterface)]⟩
  | .namespace_ r n b => ⟨.namespace_, r, [("name", .text n), ("body", stmtField b)]⟩
  | .use r cs => ⟨.use, r, [("clauses", .nodes (cs.map UseClause.outline))]⟩
  | .const r cs => ⟨.const, r, [("elements", .nodes (constantOutlines cs))]⟩
  | .global r vs => ⟨.global, r, [("variables", .nodes (vs.map VariableName.outline))]⟩
  | .unknown r k t => ⟨.unknownStatement, r, [("grammar_kind", .text k), ("text", .text t)]⟩
  | .bare e => e.outline
  | .clause c => c.outline
  | .method m => m.outline

def exprField : Option Expr → FieldValue
  | none => .absent
  | some e => .node e.outline

def stmtField : Option Stmt → FieldValue
  | none => .absent
  | some s => .node s.outline

def elseField : Option Else → FieldValue
  | none => .absent
  | some c => .node c.outline

def exprOutlines : List Expr → List Outline
  | [] => []
  | e :: es => e.outline :: exprOutlines es

def elementOutlines : List Element → List Outline
  | [] => []
  | e :: es => e.outline :: elementOutlines es

def parameterOutlines : List Parameter → List Outline
  | [] => []
  | p :: ps => p.outline :: parameterOutlines ps

def stmtOutlines : List Stmt → List Outline
  | [] => []
  | s :: ss => s.outline :: stmtOutlines ss

def elseIfOutlines : List ElseIf → List Outline
  | [] => []
  | c :: cs => c.outline :: elseIfOutlines cs

def caseOutlines : List Case → List Outline
  | [] => []
  | c :: cs => c.outline :: caseOutlines cs

def catchOutlines : List Catch → List Outline
  | [] => []
  | c :: cs => c.outline :: catchOutlines cs

def constantOutlines : List Constant → List Outline
  | [] => []
  | c :: cs => c.outline :: constantOutlines cs

def methodOutlines : List Method → List Outline
  | [] => []
  | m :: ms => m.outline :: methodOutlines ms

end

namespace Outline

/-- The nodes in one field, comments left out. -/
def fieldNodes : FieldValue → List Outline
  | .node o => if o.kind = .comment then [] else [o]
  | .nodes os => os.filter fun o => o.kind ≠ .comment
  | _ => []

def children (o : Outline) : List Outline := o.fields.flatMap fun f => fieldNodes f.2

mutual

def walk : Outline → List Outline
  | ⟨k, r, fs⟩ => ⟨k, r, fs⟩ :: walkFields fs

def walkFields : List (String × FieldValue) → List Outline
  | [] => []
  | (_, v) :: fs => walkField v ++ walkFields fs

def walkField : FieldValue → List Outline
  | .node o => if o.kind = .comment then [] else o.walk
  | .nodes os => walkNodes os
  | _ => []

def walkNodes : List Outline → List Outline
  | [] => []
  | o :: os => if o.kind = .comment then walkNodes os else o.walk ++ walkNodes os

end

end Outline

end PhpFlow
