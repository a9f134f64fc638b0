import PhpFlow.Doc
import PhpFlow.Flow.Expression

/-!
# Analysis of functions

A function is analysed with a scope of its own, in which its parameters are written first. Afterwards
the variables that were written but never read are reported, and the types of its return statements are
known.
-/
namespace PhpFlow

def readDocType (text : String) (range : Range) : Step (Option TypeUnion) := do
  match ← Step.get fun s => s.readType text with
  | .ok u => return some u
  | .error e =>
    Step.report .docType ("Invalid type in doc comment: " ++ e.message) (some range)
    return none

def readParameterType (p : Parameter) : Step (Option TypeUnion) :=
  match p.type with
  | none | some "" => pure none
  | some text => do
    match ← Step.get fun s => s.readType text with
    | .ok u => return some u
    | .error _ =>
      Step.reportMissing ("parameter type " ++ Text.quote text) (some p.range)
      return none

def readParameterDoc (doc : Option DocComment) (name : String) : Step (Option TypeUnion) :=
  match doc.bind fun d => d.param? name with
  | none => pure none
  | some (text, range) => readDocType text range

/-- A default of null makes a declared type nullable. -/
def withDefault (default : Option Value) (declared : Option TypeUnion) : Option TypeUnion :=
  match default with
  | some .null => declared.map fun u => u.union (.prim .null)
  | _ => declared

/-- A parameter for any number of arguments holds the list of them. -/
def asVariadic (variadic : Bool) (u : TypeUnion) : TypeUnion :=
  if variadic then .single (.list u) else u

def bindParameter (doc : Option DocComment) (p : Parameter) : Step Unit := do
  let written ← readParameterType p
  let documented ← readParameterDoc doc p.name
  let default ←
    match p.default with
    | none => pure none
    | some e => Step.query e.value
  let declared := (withDefault default written).map (asVariadic p.variadic)
  let comment := documented.map (asVariadic p.variadic)
  let type := (declared <|> comment).getD (asVariadic p.variadic (.prim .mixed))
  Step.updateVar p.name fun v =>
    { v with isArgument := true, declaredType := declared, commentType := comment, default }
  Step.write p.name type none (some p.range)

def bindParameters (doc : Option DocComment) : List Parameter → Step Unit
  | [] => pure ()
  | p :: ps => do
    bindParameter doc p
    bindParameters doc ps

/-- Written but never read, and neither a parameter nor visible elsewhere. -/
def Variable.isUnused (v : Variable) : Bool :=
  !v.isArgument && v.reads == 0 && v.isWritten && !superglobals.contains v.name

def reportUnusedAll : List Variable → Step Unit
  | [] => pure ()
  | v :: vs => do
    if v.isUnused then
      Step.report .unusedVariable ("Variable $" ++ v.name ++ " is assigned but never read")
        (v.history.head?.bind (·.range))
    reportUnusedAll vs

def reportUnused (h : Handle) : Step Unit := do
  if ← Step.get (·.config.reportUnused) then
    let scope ← Step.getFault fun s => s.arena.get h
    reportUnusedAll scope.vars

def Function.docComment? (f : Function) : Option DocComment :=
  match f.doc with
  | none | some "" => none
  | some text => some (.ofText text f.range)

/-- Adds names that stand for template parameters during `m`. -/
def withTemplates {α : Type} (names : List String) (m : Step α) : Step α := do
  let saved ← Step.get (·.templates)
  Step.modify fun s => { s with templates := s.templates ++ names }
  Step.ensuring m (Step.modify fun s => { s with templates := saved })

def Function.infer (f : Function) (name : QualifiedName) (body : Step Bool) : Step TypeUnion := do
  let doc := f.docComment?
  let (_, frame) ← withTemplates ((doc.map (·.templates)).getD []) <|
    Step.inFrame (some name) do
      let root ← Step.currentHandle
      bindParameters doc f.parameters
      match doc.bind (·.returns?) with
      | none => pure ()
      | some (text, range) => do
        let _ ← readDocType text range
      let _ ← body
      reportUnused root
  return frame.returnType.getD (.prim .void)

/-- The symbol of a function about which only its parameters are known. -/
def Function.plainSymbol (f : Function) (name : QualifiedName) : FunctionSymbol :=
  { name, params := f.parameters.map (·.name) }

/-- Analyses a function and notes in its symbol what it returns. -/
def Function.define (f : Function) (body : Step Bool) : Step Unit := do
  let name ← Step.get fun s => s.qualify f.name
  Step.modify fun s => { s with symbols := s.symbols.addFunction (f.plainSymbol name) }
  let inferred ← f.infer name body
  Step.modify fun s =>
    { s with symbols := s.symbols.updateFunction name fun g => { g with inferred := some inferred } }

/-- Changes a method of a class, which is added if it is not there. -/
def ClassSymbol.updateMethod (c : ClassSymbol) (name : String) (fresh : FunctionSymbol)
    (f : FunctionSymbol → FunctionSymbol) : ClassSymbol :=
  c.setMethod name (f ((c.method? name).getD fresh))

def Method.define (m : Method) (body : Step Bool) : Step Unit := do
  let owner ← Step.get fun s => s.currentClass.getD .empty
  let name := owner.push m.function.name
  let fresh := m.function.plainSymbol name
  let update := fun (f : FunctionSymbol → FunctionSymbol) => Step.modify fun s =>
    { s with
      symbols := s.symbols.updateClass owner fun c => c.updateMethod m.function.name fresh f }
  update id
  let inferred ← m.function.infer name body
  update fun g => { g with inferred := some inferred }

def inClass {α : Type} (name : QualifiedName) (m : Step α) : Step α := do
  let saved ← Step.get (·.currentClass)
  Step.modify fun s => { s with currentClass := some name }
  Step.ensuring m (Step.modify fun s => { s with currentClass := saved })

end PhpFlow
