import PhpFlow.Concrete.Expression
import PhpFlow.Text.Word

/-!
# Reading statements

For every type of node there is a function from the readings of its children to a statement. A node of
any other type is an unknown statement.
-/
namespace PhpFlow.Reading

def expressionStatement (r : Reading) : Except BuildError Stmt :=
  match r.parts with
  | [] => .ok (.empty r.range)
  | c :: _ => c.expr.map fun e => .expression r.range e

def echo (r : Reading) : Except BuildError Stmt := do
  let es ← r.parts.mapM (·.expr)
  return .echo r.range (es.flatMap Expr.members)

def return_ (r : Reading) : Except BuildError Stmt :=
  (optionalExpr r.parts.head?).map fun e => .return_ r.range e

def elseIf (r : Reading) : Except BuildError ElseIf := do
  let condition ← r.required "condition"
  let c ← condition.expr
  let b ← body (r.field? "body")
  return ⟨r.range, c, b⟩

def else_ (r : Reading) : Except BuildError Else := do
  let b ← body (r.field? "body" <|> r.parts.head?)
  return ⟨r.range, b⟩

/-- The clauses after the first condition; of several else clauses the last counts. -/
def ifClauses : List Reading → Except BuildError (List ElseIf × Option Else)
  | [] => .ok ([], none)
  | c :: cs =>
    if c.isNamed && c.type == "else_if_clause" then do
      let e ← c.elseIf
      let (es, last) ← ifClauses cs
      return (e :: es, last)
    else if c.isNamed && c.type == "else_clause" then do
      let e ← c.else_
      let (es, last) ← ifClauses cs
      return (es, last <|> some e)
    else ifClauses cs

def if_ (r : Reading) : Except BuildError Stmt := do
  let (elseIfs, last) ← ifClauses r.children
  let condition ← r.required "condition"
  let c ← condition.expr
  let b ← body (r.field? "body")
  return .ifElse r.range c b elseIfs last

def while_ (r : Reading) : Except BuildError Stmt := do
  let condition ← r.required "condition"
  let c ← condition.expr
  let b ← body (r.field? "body")
  return .while_ r.range c b

def doWhile (r : Reading) : Except BuildError Stmt := do
  let b ← body (r.field? "body")
  let condition ← r.required "condition"
  let c ← condition.expr
  return .doWhile r.range b c

/-- The three groups of expressions in the head of a `for` loop, and its body. -/
structure ForParts where
  groups : List Expr × List Expr × List Expr
  body : List Stmt

def ForParts.addTo (slot : Nat) (es : List Expr) (p : ForParts) : ForParts :=
  let (a, b, c) := p.groups
  match slot with
  | 0 => { p with groups := (es ++ a, b, c) }
  | 1 => { p with groups := (a, es ++ b, c) }
  | _ => { p with groups := (a, b, es ++ c) }

/-- The groups are divided by semicolons, and the body comes after the parenthesis. -/
def forParts (slot : Nat) (inHead : Bool) : List Reading → Except BuildError ForParts
  | [] => .ok ⟨([], [], []), []⟩
  | c :: cs =>
    if !inHead then
      if c.isStatement then do
        let s ← c.stmt
        let rest ← forParts slot false cs
        return { rest with body := s.members ++ rest.body }
      else forParts slot false cs
    else if c.type == ";" then forParts (slot + 1) true cs
    else if c.type == ")" then forParts slot false cs
    else if c.isPart then do
      let e ← c.expr
      let rest ← forParts slot true cs
      return rest.addTo slot e.members
    else forParts slot true cs

def for_ (r : Reading) : Except BuildError Stmt := do
  let p ← forParts 0 true r.children
  return .for_ r.range p.groups.1 p.groups.2.1 p.groups.2.2 p.body

/-- The key and the value that a `foreach` loop binds, of which the value may be a reference. -/
def foreachBinding (r : Reading) : Except BuildError (Option Expr × Reading × Bool) := do
  let (key, value) ←
    if r.type == "pair" then
      match r.parts.head?, r.parts.getLast? with
      | some k, some v => do
        let e ← k.expr
        pure (some e, v)
      | _, _ => throw .emptyBinding
    else pure (none, r)
  if value.type == "by_ref" then
    match value.parts.getLast? with
    | some v => return (key, v, true)
    | none => throw .emptyBinding
  else return (key, value, false)

def foreach (r : Reading) : Except BuildError Stmt := do
  let bodyField := r.field? "body"
  let ps := (r.childrenBesides "body").filter isPart
  match ps with
  | subject :: binding :: rest => do
    let (key, value, byRef) ← binding.foreachBinding
    let e ← subject.expr
    let v ← value.expr
    let b ← body (bodyField <|> rest.getLast?)
    return .foreach r.range e v b key byRef
  | _ => throw (r.missing "foreach binding")

def case? (r : Reading) : Except BuildError (Option Case) :=
  if r.type == "case_statement" then do
    let v ← r.exprOf (r.field? "value")
    let ss ← statements (r.childrenBesides "value")
    return some ⟨r.range, some v, ss⟩
  else if r.type == "default_statement" then do
    let ss ← statements r.children
    return some ⟨r.range, none, ss⟩
  else .ok none

def partsOf : Option Reading → List Reading
  | none => []
  | some r => r.parts

def switch (r : Reading) : Except BuildError Stmt := do
  let condition ← r.required "condition"
  let e ← condition.expr
  let cs ← (partsOf (r.field? "body")).mapM case?
  return .switch r.range e (cs.filterMap id)

def catch_ (r : Reading) : Except BuildError Catch := do
  let types := (partsOf (r.field? "type")).map (·.text)
  let bodyField ← r.required "body"
  let b ← bodyField.blockBody
  return ⟨r.range, types, b, (r.field? "name").map variableName⟩

/-- The clauses after the body of a try statement; of several finally clauses the last counts. -/
def tryClauses : List Reading → Except BuildError (List Catch × Option Stmt)
  | [] => .ok ([], none)
  | c :: cs =>
    if c.isNamed && c.type == "catch_clause" then do
      let e ← c.catch_
      let (es, last) ← tryClauses cs
      return (e :: es, last)
    else if c.isNamed && c.type == "finally_clause" then do
      let bodyField ← c.required "body"
      let b ← bodyField.blockBody
      let (es, last) ← tryClauses cs
      return (es, last <|> some b)
    else tryClauses cs

def try_ (r : Reading) : Except BuildError Stmt := do
  let bodyField ← r.required "body"
  let b ← bodyField.blockBody
  let (catches, last) ← tryClauses r.children
  return .try_ r.range b catches last

def function (r : Reading) : Except BuildError Function := do
  let name ← r.required "name"
  let ps ← parameters (r.field? "parameters")
  let b ← optionalBlock (r.field? "body")
  return ⟨r.range, name.text, ps, b, (r.field? "return_type").map (·.text), r.mark.doc⟩

def method (r : Reading) : Except BuildError Method := do
  let f ← r.function
  return ⟨f, r.children.any fun c => c.type == "static_modifier"⟩

def clauseNames (r : Reading) (type : String) : List (List String) :=
  (r.children.filter fun c => c.isNamed && c.type == type).map fun c => c.parts.map (·.text)

/-- The parent of a class: the first name of the last clause with names. -/
def parentName? (r : Reading) : Option String :=
  ((r.clauseNames "base_clause").filterMap List.head?).getLast?

/-- The names that a class implements or an interface extends, in the order of the clauses. -/
def interfaceNames (r : Reading) (isInterface : Bool) : List String :=
  (r.children.filter fun c => c.isNamed &&
    (c.type == "class_interface_clause" || (isInterface && c.type == "base_clause"))).flatMap fun c =>
      c.parts.map (·.text)

def class_ (r : Reading) : Except BuildError Stmt := do
  let isInterface := r.type == "interface_declaration"
  let members := (partsOf (r.field? "body")).filter fun c => c.type == "method_declaration"
  let methods ← members.mapM method
  let name ← r.required "name"
  return .class_ r.range name.text (if isInterface then none else r.parentName?)
    (r.interfaceNames isInterface) methods isInterface

def namespace_ (r : Reading) : Except BuildError Stmt := do
  let b ←
    match r.field? "body" with
    | none => pure none
    | some b => b.block.map some
  return .namespace_ r.range (((r.field? "name").map (·.text)).getD "") b

def isNameChar (c : Char) : Bool := Text.isWord c || c = '\\'

/-- A name without one backslash in front, unless that is all there is. -/
def importName? (word : List Char) : Option String :=
  if word.isEmpty || !word.all isNameChar then none
  else
    match word with
    | '\\' :: c :: cs => some (String.ofList (c :: cs))
    | cs => some (String.ofList cs)

/-- A name, with another name after `as` or without. -/
def importWords? : List (List Char) → Option (String × Option String)
  | [n] => (importName? n).map fun n => (n, none)
  | [n, ['a', 's'], a] =>
    if a.all Text.isWord then (importName? n).map fun n => (n, some (String.ofList a)) else none
  | _ => none

/-- The words of an import, in which functions and constants are marked by a word in front. -/
def import? (words : List (List Char)) : Option (String × Option String) :=
  match words with
  | w :: rest =>
    if w = "function".toList || w = "const".toList then importWords? rest <|> importWords? words
    else importWords? words
  | [] => none

def useClause? (r : Reading) : Option UseClause :=
  if r.type == "namespace_use_clause" then
    (import? (Text.words r.text.toList)).map fun (n, a) => ⟨r.range, n, a⟩
  else none

def constant (r : Reading) : Except BuildError Constant :=
  match r.parts with
  | name :: value :: rest => do
    let e ← (rest.getLast?.getD value).expr
    return ⟨r.range, name.text, e⟩
  | _ => .error (.unexpected r.range "const name and value" r.type)

def const (r : Reading) : Except BuildError Stmt := do
  let cs ← (r.parts.filter fun c => c.type == "const_element").mapM constant
  return .const r.range cs

def global (r : Reading) : Stmt :=
  .global r.range ((r.parts.filter fun c => c.type == "variable_name").map variableName)

def toStmt (r : Reading) : Except BuildError Stmt :=
  match r.type with
  | "comment" => .ok (.comment r.range r.text)
  | "expression_statement" => r.expressionStatement
  | "compound_statement" => r.block
  | "echo_statement" => r.echo
  | "return_statement" => r.return_
  | "if_statement" => r.if_
  | "while_statement" => r.while_
  | "do_statement" => r.doWhile
  | "for_statement" => r.for_
  | "foreach_statement" => r.foreach
  | "switch_statement" => r.switch
  | "break_statement" => .ok (.break_ r.range)
  | "continue_statement" => .ok (.continue_ r.range)
  | "empty_statement" => .ok (.empty r.range)
  | "try_statement" => r.try_
  | "function_definition" => r.function.map .function
  | "class_declaration" | "interface_declaration" => r.class_
  | "namespace_definition" => r.namespace_
  | "namespace_use_declaration" => .ok (.use r.range (r.parts.filterMap useClause?))
  | "const_declaration" => r.const
  | "global_declaration" => .ok r.global
  | "ERROR" => .ok (.bare (.error r.range r.text))
  | _ => .ok (.unknown r.range r.type r.text)

end PhpFlow.Reading
