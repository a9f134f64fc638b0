import PhpFlow.Flow.Function

/-!
# Analysis of statements

Every arm of a construct is analysed in a branch of the current scope, and the arms are merged when all
are done. The outcome is false if the analysis met a syntax error and has to stop; the function around
the error is then left, and the code after it is still analysed.
-/
namespace PhpFlow

/-- A doc comment is kept for the statement after it. -/
def keepDoc (text : String) (range : Range) : Step Unit :=
  if text.startsWith "/**" then Step.modify fun s => { s with pendingDoc := some ⟨text, range⟩ }
  else pure ()

def takeDoc : Step (Option DocText) := do
  let doc ← Step.get (·.pendingDoc)
  Step.modify fun s => { s with pendingDoc := none }
  return doc

/-- Gives variables the types of `@var` tags; a tag without a name is about the assigned variable. -/
def applyVars (assigned : Option String) : List (String × Option String × Range) → Step Unit
  | [] => pure ()
  | (type, name, range) :: rest => do
    match name <|> assigned with
    | none => pure ()
    | some n =>
      match ← readDocType type range with
      | none => pure ()
      | some u => Step.updateVar n fun v => { v with commentType := some u }
    applyVars assigned rest

def applyDoc (assigned : Option String) : Step Unit := do
  match ← takeDoc with
  | none => pure ()
  | some doc => applyVars assigned (DocComment.ofText doc.text doc.range).vars

/-- The variable that a statement is mainly about. -/
def Stmt.assigned? : Stmt → Option String
  | .expression _ e =>
    match e.unwrap with
    | .assign _ a _ _ => a.variableName?
    | _ => none
  | .foreach _ _ v _ _ _ => v.variableName?
  | _ => none

/-- Comments do not count among the parts of a clause. -/
def Stmt.unlessComment : Stmt → Step Bool → Step Bool
  | .comment _ _, _ => pure true
  | _, m => m

def addReturn (type : TypeUnion) (value : Option Value) : Step Unit :=
  Step.modify fun s => s.updateFrame fun f => { f with returns := f.returns ++ [(type, value)] }

/-- A return statement gives its type to the function around it. -/
def returnValue : Option Expr → Step Bool
  | none => Step.thenContinue (addReturn (.prim .void) none)
  | some e =>
    Step.andThen (e.evaluate .return_) do
      let u ← Step.query e.type
      let v ← Step.query e.value
      addReturn (u.getD (.prim .mixed)) v
      return true

/-- A global variable may have been written elsewhere. There has to be a scope even if none is named. -/
def declareGlobals : List VariableName → Step Unit
  | [] => Functor.discard (Step.getFault State.currentScope)
  | v :: vs => do
    Step.updateVar v.name fun x => { x with isArgument := true }
    let scope ← Step.getFault State.currentScope
    if !((scope.var? v.name).map (·.isWritten)).getD false then
      Step.write v.name (.prim .mixed) none (some v.range)
    declareGlobals vs

def namespaceOf (name : String) : Option QualifiedName :=
  if name = "" then none else some (.ofText name)

def registerUses : List UseClause → State → State
  | [], s => s
  | c :: cs, s =>
    let q := QualifiedName.ofText c.name
    let short :=
      match c.shortName with
      | none | some "" => q.last?
      | some a => some a
    match short with
    | none | some "" => registerUses cs s
    | some a => registerUses cs (s.addUse a q)

/-- Enters a namespace for good, or during its body. Imports end with the namespace. -/
def inNamespace (name : String) (body : Option (Step Bool)) : Step Bool := do
  Step.modify fun s => { s with uses := [] }
  let saved ← Step.get (·.namespaceName)
  Step.modify fun s => { s with namespaceName := namespaceOf name }
  match body with
  | none => return true
  | some body =>
    Step.ensuring body (Step.modify fun s => { s with namespaceName := saved, uses := [] })

def loopBody (makeBranch : Step Handle) (body : Step Bool) : Step Bool := do
  let parent ← Step.currentHandle
  let taken ← makeBranch
  let skipped ← Step.branch parent .onFalse
  let ok ← Step.inScope taken (Step.inLoop body)
  Step.merge parent [taken, skipped]
  return ok

/-- The branch in which the body of a `for` loop runs; its last condition decides. -/
def forBranch (conditions : List Expr) : Step Handle :=
  match conditions.getLast? with
  | some c => c.branch .onTrue
  | none => do
    let parent ← Step.currentHandle
    Step.branch parent .onTrue

/-- Writes key and value of an element before the body of a `foreach` loop. -/
def bindElement (key : Option Expr) (value : Expr) (types : TypeUnion × TypeUnion) : Step Unit := do
  match key with
  | none => pure ()
  | some k => k.store (some types.1) none
  value.store (some types.2) none

def foreachLoop (subject : Expr) (key : Option Expr) (value : Expr) (body : Step Bool) : Step Bool :=
  Step.andThen (subject.evaluate .foreach) do
    let types := elementTypes? (← Step.query subject.type)
    let makeBranch : Step Handle := do
      let parent ← Step.currentHandle
      Step.branch parent .onTrue
    loopBody makeBranch do
      bindElement key value types
      body

def inArm (parent : Handle) (arm : Step Bool) : Step (Bool × Handle) := do
  let h ← Step.branch parent .neutral
  let ok ← Step.inScope h arm
  return (ok, h)

/-- Analyses arms one after the other, up to one that has to stop. -/
def analyzeArms (parent : Handle) : List (Step Bool) → Step (Bool × List Handle)
  | [] => pure (true, [])
  | arm :: arms => do
    let (ok, h) ← inArm parent arm
    if ok then
      let (ok, hs) ← analyzeArms parent arms
      return (ok, h :: hs)
    else return (false, [h])

/-- Merges the arms of a switch; without a default arm none of them may run. -/
def switchArms (hasDefault : Bool) (arms : List (Step Bool)) : Step Bool := do
  let parent ← Step.currentHandle
  let (ok, branches) ← analyzeArms parent arms
  let others ← if hasDefault then pure [] else do
    let h ← Step.branch parent .neutral
    pure [h]
  Step.merge parent (branches ++ others)
  return ok

/-- Merges the arms of a try statement and then runs what comes last in any case. -/
def tryArms (arms : List (Step Bool)) (last : Step Bool) : Step Bool := do
  let parent ← Step.currentHandle
  let (ok, branches) ← analyzeArms parent arms
  Step.merge parent branches
  if ok then last else return false

def caughtType (types : List String) (s : State) : TypeUnion :=
  let names := if types.isEmpty then ["\\Throwable"] else types
  .ofList (names.map fun n => .named (s.resolveClass n) (withoutLeadingSlashes n))

def bindCaught (types : List String) : Option VariableName → Step Unit
  | none => pure ()
  | some v => do
    let u ← Step.get (caughtType types)
    (Expr.var v.range v.name).store (some u) none

mutual

def Stmt.analyze : Stmt → NodeKind → Step Bool
  | .comment r t, _ => Step.thenContinue (keepDoc t r)
  | .program r ss, _ => Step.guarded r true (analyzeStatements ss .program)
  | .block r ss, _ => Step.guarded r true (analyzeStatements ss .block)
  | .expression _ e, _ => e.evaluate .expressionStatement
  | .echo _ es, _ => evaluateAll es .echo
  | .return_ _ e, _ => returnValue e
  | .ifElse r c b eis e, _ =>
    Step.guarded r true <|
      Step.andThen (c.evaluate .if_) <|
      Step.choice c (b.analyze .if_) (analyzeElseIfs eis (analyzeElse e))
  | .while_ r c b, _ =>
    Step.guarded r true <|
      Step.andThen (c.evaluate .while_) <|
      loopBody (c.branch .onTrue) (b.analyze .while_)
  | .doWhile r b c, _ =>
    Step.guarded r true <| Step.andThen (Step.inLoop (b.analyze .do_)) (c.evaluate .do_)
  | .for_ r is cs ns b, _ =>
    Step.guarded r true <|
      Step.andThen (evaluateAll is .for_) <|
      Step.andThen (evaluateAll cs .for_) <|
      loopBody (forBranch cs) (Step.andThen (analyzeStatements b .for_) (evaluateAll ns .for_))
  | .foreach r i v b k _, _ => Step.guarded r true (foreachLoop i k v (b.analyze .foreach))
  | .switch r e cs, _ =>
    Step.guarded r true <|
      Step.andThen (e.evaluate .switch) <|
      switchArms (cs.any fun c => c.value.isNone) (caseArms cs)
  | .try_ r b cs f, _ =>
    Step.guarded r true <| tryArms (b.analyze .try_ :: catchArms cs) (analyzeFinally f)
  | .break_ _, _ | .continue_ _, _ | .empty _, _ => pure true
  | .function f, _ => Step.guarded f.range true (Step.thenContinue (f.define (f.analyzeBody .function)))
  | .method m, _ => m.analyze
  | .class_ _ n _ _ ms _, _ => do
    let name ← Step.get fun s => s.qualify n
    inClass name (analyzeMethods ms)
    return true
  | .namespace_ _ n b, _ => inNamespace n (namespaceBody b)
  | .use _ cs, _ => Step.thenContinue (Step.modify (registerUses cs))
  | .const _ cs, _ => analyzeConstants cs
  | .global r vs, _ => Step.guarded r true (Step.thenContinue (declareGlobals vs))
  | .unknown r k _, _ => Step.thenContinue (Step.reportMissing ("statement kind " ++ k) (some r))
  | .bare e, where_ => e.analyze .value where_
  | .clause c, _ => c.analyze

/-- Analyses statements in order; a doc comment is about the statement after it. -/
def analyzeStatements : List Stmt → NodeKind → Step Bool
  | [], _ => pure true
  | s :: ss, where_ =>
    match s with
    | .comment r t => do
      keepDoc t r
      analyzeStatements ss where_
    | s => do
      applyDoc s.assigned?
      Step.andThen (s.analyze where_) (analyzeStatements ss where_)

def analyzeElseIfs : List ElseIf → Step Bool → Step Bool
  | [], last => last
  | ⟨_, c, b⟩ :: cs, last =>
    Step.andThen (c.evaluate .elseIf) <|
    Step.choice c (b.analyze .elseIf) (analyzeElseIfs cs last)

def analyzeElse : Option Else → Step Bool
  | none => pure true
  | some ⟨_, b⟩ => b.analyze .else_

def caseArms : List Case → List (Step Bool)
  | [] => []
  | ⟨_, v, ss⟩ :: cs =>
    Step.andThen (evaluateAll v.toList .case) (analyzeStatements ss .case) :: caseArms cs

def catchArms : List Catch → List (Step Bool)
  | [] => []
  | ⟨_, ts, b, v⟩ :: cs =>
    (do
      bindCaught ts v
      b.analyze .catch_) :: catchArms cs

def analyzeFinally : Option Stmt → Step Bool
  | none => pure true
  | some s => s.analyze .try_

def Function.analyzeBody : Function → NodeKind → Step Bool
  | ⟨_, _, _, none, _, _⟩, _ => pure true
  | ⟨_, _, _, some b, _, _⟩, where_ => b.analyze where_

def Method.analyze : Method → Step Bool
  | ⟨f, isStatic⟩ =>
    Step.guarded f.range true
      (Step.thenContinue (Method.define ⟨f, isStatic⟩ (f.analyzeBody .method)))

def analyzeMethods : List Method → Step Unit
  | [] => pure ()
  | m :: ms => do
    let _ ← m.analyze
    analyzeMethods ms

def namespaceBody : Option Stmt → Option (Step Bool)
  | none => none
  | some s => some (s.analyze .namespace_)

def analyzeConstants : List Constant → Step Bool
  | [] => pure true
  | ⟨_, _, v⟩ :: cs => Step.andThen (v.evaluate .constElement) (analyzeConstants cs)

/-- A clause that stands by itself is just the sequence of its parts. -/
def Clause.analyze : Clause → Step Bool
  | .element e => analyzeElements [e]
  | .parameter p => analyzeOption p.default .parameter
  | .elseIf ⟨_, c, b⟩ => Step.andThen (c.analyze .value .elseIf) (b.unlessComment (b.analyze .elseIf))
  | .else_ ⟨_, b⟩ => b.unlessComment (b.analyze .else_)
  | .case ⟨_, v, ss⟩ => Step.andThen (analyzeOption v .case) (analyzeParts ss)
  | .catch_ ⟨_, _, b, _⟩ => b.unlessComment (b.analyze .catch_)
  | .use _ => pure true
  | .constant c => c.value.analyze .value .constElement

/-- Analyses the statements of an arm that stands by itself. -/
def analyzeParts : List Stmt → Step Bool
  | [] => pure true
  | s :: ss => Step.andThen (s.unlessComment (s.analyze .case)) (analyzeParts ss)

end

end PhpFlow
