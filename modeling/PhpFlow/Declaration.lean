import PhpFlow.Flow.Statement

/-!
# Declarations

Before the code of a file is analysed, its functions, classes and constants are entered into the symbol
table, wherever they stand, so that code can refer to what is declared after it. Nothing is reported
here.
-/
namespace PhpFlow

/-- Asks a query and drops the issues it finds. -/
def Step.silently {α : Type} (q : Query α) : Step α := fun s => ((q s).1, s)

def State.readTypeText? (s : State) : Option String → Option TypeUnion
  | none | some "" => none
  | some text => (s.readType text).toOption

/-- The return type that the doc comment of a function gives. -/
def State.docReturnType? (s : State) (doc : String) : Option TypeUnion :=
  let d := DocComment.ofText doc .zero
  match d.returns? with
  | none => none
  | some (text, _) => { s with templates := s.templates ++ d.templates }.readTypeText? (some text)

def Function.symbol (f : Function) (name : QualifiedName) (s : State) : FunctionSymbol :=
  { name
    declared := s.readTypeText? f.returnType
    comment :=
      match f.doc with
      | none | some "" => none
      | some text => s.docReturnType? text
    params := f.parameters.map (·.name) }

def declareConstant (name : QualifiedName) (e : Expr) : Step Unit := do
  let value ← Step.silently e.value
  let type ←
    match value with
    | some v => pure (some v.type)
    | none => Step.silently e.type
  Step.modify fun s => { s with symbols := s.symbols.addConstant ⟨name, type, value⟩ }

def definition? (function : Expr) (arguments : List Expr) : Option (String × Expr) :=
  match function, arguments with
  | .name _ f, .string _ (some c) :: e :: _ =>
    if Text.lower (withoutLeadingSlashes f) = "define" && c ≠ "" then some (c, e) else none
  | _, _ => none

def declareDefinition (function : Expr) (arguments : List Expr) : Step Unit :=
  match definition? function arguments with
  | some (c, e) => declareConstant (.ofText c) e
  | none => pure ()

def classHead (name : QualifiedName) (parent : Option String) (interfaces : List String)
    (isInterface : Bool) (s : State) : ClassSymbol :=
  { name
    kind := if isInterface then .interface else .plain
    parent :=
      match parent with
      | none | some "" => none
      | some p => some (s.resolveClass p)
    interfaces := interfaces.map s.resolveClass }

/-- Enters a namespace for good, or during its body, after which the imports are what they were. -/
def declareNamespace (name : String) (body : Option (Step Unit)) : Step Unit := do
  let saved ← Step.get fun s => (s.namespaceName, s.uses)
  Step.modify fun s => { s with namespaceName := namespaceOf name, uses := [] }
  match body with
  | none => pure ()
  | some body =>
    Step.ensuring body (Step.modify fun s => { s with namespaceName := saved.1, uses := saved.2 })

mutual

def Expr.declare : Expr → Step Unit
  | .array _ es => declareElements es
  | .assign _ a b _ | .augment _ a _ b | .binary _ a _ b => do
    a.declare
    b.declare
  | .unary _ _ a | .update _ _ a _ | .paren _ a | .cast _ _ a => a.declare
  | .ternary _ c b a => do
    c.declare
    declareOption b
    a.declare
  | .call _ f as => do
    declareDefinition f as
    f.declare
    declareAll as
  | .create _ c as => do
    c.declare
    declareAll as
  | .subscript _ b i => do
    b.declare
    declareOption i
  | .sequence _ es => declareAll es
  | .select _ e arms => do
    e.declare
    declareStatements arms
  | .closure _ ps b => do
    declareDefaults ps
    declareBody b
  | .var _ _ | .integer _ _ | .float _ _ | .string _ _ | .boolean _ _ | .null _ | .name _ _
  | .unknown _ _ _ | .error _ _ => pure ()

def declareOption : Option Expr → Step Unit
  | none => pure ()
  | some e => e.declare

def declareAll : List Expr → Step Unit
  | [] => pure ()
  | e :: es => do
    e.declare
    declareAll es

def Element.declare : Element → Step Unit
  | ⟨_, v, k, _, _⟩ => do
    v.declare
    declareOption k

def declareElements : List Element → Step Unit
  | [] => pure ()
  | e :: es => do
    e.declare
    declareElements es

def declareDefaults : List Parameter → Step Unit
  | [] => pure ()
  | ⟨_, _, _, d, _, _⟩ :: ps => do
    declareOption d
    declareDefaults ps

def declareBody : Option Stmt → Step Unit
  | none => pure ()
  | some s => s.declare

def Case.declare : Case → Step Unit
  | ⟨_, v, ss⟩ => do
    declareOption v
    declareStatements ss

def declareCases : List Case → Step Unit
  | [] => pure ()
  | c :: cs => do
    c.declare
    declareCases cs

def ElseIf.declare : ElseIf → Step Unit
  | ⟨_, c, b⟩ => do
    c.declare
    b.declare

def declareElseIfs : List ElseIf → Step Unit
  | [] => pure ()
  | c :: cs => do
    c.declare
    declareElseIfs cs

def declareElse : Option Else → Step Unit
  | none => pure ()
  | some ⟨_, b⟩ => b.declare

def declareCatches : List Catch → Step Unit
  | [] => pure ()
  | ⟨_, _, b, _⟩ :: cs => do
    b.declare
    declareCatches cs

def Function.declareBody : Function → Step Unit
  | ⟨_, _, _, none, _, _⟩ => pure ()
  | ⟨_, _, _, some b, _, _⟩ => b.declare

def methodSymbols (owner : QualifiedName) : List Method → Step (List (String × FunctionSymbol))
  | [] => pure []
  | ⟨f, _⟩ :: ms => do
    let symbol ← Step.get (f.symbol (owner.push f.name))
    f.declareBody
    let rest ← methodSymbols owner ms
    return (f.name, symbol) :: rest

def declareConstants : List Constant → Step Unit
  | [] => pure ()
  | ⟨_, n, v⟩ :: cs => do
    let name ← Step.get fun s => s.qualify n
    declareConstant name v
    declareConstants cs

def Clause.declare : Clause → Step Unit
  | .element e => e.declare
  | .parameter ⟨_, _, _, d, _, _⟩ => declareOption d
  | .elseIf c => c.declare
  | .else_ ⟨_, b⟩ => b.declare
  | .case c => c.declare
  | .catch_ ⟨_, _, b, _⟩ => b.declare
  | .use _ => pure ()
  | .constant ⟨_, _, v⟩ => v.declare

def Stmt.declare : Stmt → Step Unit
  | .program _ ss | .block _ ss => declareStatements ss
  | .expression _ e | .bare e => e.declare
  | .echo _ es => declareAll es
  | .return_ _ e => declareOption e
  | .ifElse _ c b eis e => do
    c.declare
    b.declare
    declareElseIfs eis
    declareElse e
  | .while_ _ c b => do
    c.declare
    b.declare
  | .doWhile _ b c => do
    b.declare
    c.declare
  | .for_ _ is cs ns b => do
    declareAll is
    declareAll cs
    declareAll ns
    declareStatements b
  | .foreach _ i v b k _ => do
    i.declare
    v.declare
    b.declare
    declareOption k
  | .switch _ e cs => do
    e.declare
    declareCases cs
  | .try_ _ b cs f => do
    b.declare
    declareCatches cs
    declareBody f
  | .function f => do
    let name ← Step.get fun s => s.qualify f.name
    Step.modify fun s => { s with symbols := s.symbols.addFunction (f.symbol name s) }
    f.declareBody
  | .method ⟨⟨_, _, ps, b, _, _⟩, _⟩ => do
    declareDefaults ps
    declareBody b
  | .class_ _ n p is ms isInterface => do
    let name ← Step.get fun s => s.qualify n
    let head ← Step.get (classHead name p is isInterface)
    let methods ← inClass name (methodSymbols name ms)
    let whole := methods.foldl (fun c m => c.setMethod m.1 m.2) head
    Step.modify fun s => { s with symbols := s.symbols.addClass whole }
  | .namespace_ _ n b => declareNamespace n (declaredBody b)
  | .use _ cs => Step.modify (registerUses cs)
  | .const _ cs => declareConstants cs
  | .clause c => c.declare
  | .comment _ _ | .break_ _ | .continue_ _ | .empty _ | .global _ _ | .unknown _ _ _ => pure ()

def declaredBody : Option Stmt → Option (Step Unit)
  | none => none
  | some s => some s.declare

def declareStatements : List Stmt → Step Unit
  | [] => pure ()
  | s :: ss => do
    s.declare
    declareStatements ss

end

/-- Enters everything that a file declares, and then leaves its namespace. -/
def Stmt.collect (p : Stmt) : Step Unit := do
  p.declare
  Step.modify fun s => { s with namespaceName := none, uses := [] }

end PhpFlow
