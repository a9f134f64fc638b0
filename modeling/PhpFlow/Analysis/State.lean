import PhpFlow.Config
import PhpFlow.Issue.Collector
import PhpFlow.Scope.Arena
import PhpFlow.Symbol
import PhpFlow.Type.Meaning

/-!
# The state of an analysis

Everything an analysis step depends on besides the code itself: the symbols, the namespace with its
imports, the scopes, the functions being analysed, and where issues go.
-/
namespace PhpFlow

structure DocText where
  text : String
  range : Range
  deriving DecidableEq, Repr

structure Frame where
  name : Option QualifiedName
  /-- The scopes entered, innermost first. -/
  scopes : List Handle
  returns : List (TypeUnion × Option Value)

namespace Frame

def new (name : Option QualifiedName) : Frame := ⟨name, [], []⟩

def returnType (f : Frame) : Option TypeUnion :=
  if f.returns.isEmpty then none else some (.flatten (f.returns.map (·.1)))

end Frame

structure State where
  symbols : SymbolTable
  config : Config
  file : Option String
  sink : Sink
  namespaceName : Option QualifiedName
  /-- The imported names by their aliases in lower case. -/
  uses : List (String × QualifiedName)
  arena : Arena
  /-- The functions entered, innermost first. -/
  frames : List Frame
  fileFrame : Frame
  currentClass : Option QualifiedName
  loopDepth : Nat
  /-- A doc comment that the next statement will take. -/
  pendingDoc : Option DocText
  templates : List String

namespace State

def new (symbols : SymbolTable) (config : Config) (file : Option String) (sink : Sink) : State :=
  let (root, arena) := Arena.empty.newRoot
  { symbols, config, file, sink, namespaceName := none, uses := [], arena, frames := []
    fileFrame := { Frame.new none with scopes := [root] }, currentClass := none, loopDepth := 0
    pendingDoc := none, templates := [] }

def currentFrame (s : State) : Frame :=
  match s.frames with
  | f :: _ => f
  | [] => s.fileFrame

def updateFrame (s : State) (g : Frame → Frame) : State :=
  match s.frames with
  | f :: fs => { s with frames := g f :: fs }
  | [] => { s with fileFrame := g s.fileFrame }

def currentHandle (s : State) : Except Fault Handle :=
  match s.currentFrame.scopes with
  | h :: _ => .ok h
  | [] => .error .emptyScopeStack

def currentScope (s : State) : Except Fault Scope := do
  let h ← s.currentHandle
  s.arena.get h

def position (s : State) (r : Range) : Position := ⟨s.file, r⟩

/-- A name in the current namespace, unless a leading backslash makes it absolute. -/
def qualify (s : State) (name : String) : QualifiedName :=
  if name.startsWith "\\" then .ofText name
  else (s.namespaceName.getD .empty).push name

/-- A name up to its first backslash, and what follows that. -/
def splitName (name : String) : String × String :=
  let cs := name.toList
  (String.ofList (cs.takeWhile (· ≠ '\\')), String.ofList ((cs.dropWhile (· ≠ '\\')).drop 1))

/-- The class a name refers to here, through imports and the current namespace. -/
def resolveClass (s : State) (name : String) : QualifiedName :=
  if name.startsWith "\\" then .ofText name
  else
    let w := Text.lower name
    match s.currentClass with
    | some c => if w = "self" || w = "static" then c else throughUses
    | none => throughUses
where
  throughUses : QualifiedName :=
    let (first, rest) := splitName name
    match s.uses.lookup (Text.lower first) with
    | some q => if rest = "" then q else q.push rest
    | none => s.qualify name

/-- The function a name refers to: one in the current namespace if it is declared, or else a global
one. A qualified name is found like that of a class. -/
def resolveFunction (s : State) (name : String) : QualifiedName :=
  if isQualified name then s.resolveClass name
  else
    let q := s.qualify name
    if (s.symbols.function? q).isSome then q else ⟨[name]⟩

def nameContext (s : State) : NameContext := { resolve := s.resolveClass, templates := s.templates }

def readType (s : State) (text : String) : Except TypeSyntaxError TypeUnion :=
  s.nameContext.read text

/-- Puts an import under its short name, in the place of one that is there. -/
def setUse (short : String) (q : QualifiedName) :
    List (String × QualifiedName) → List (String × QualifiedName)
  | [] => [(short, q)]
  | (a, r) :: rest => if a = short then (a, q) :: rest else (a, r) :: setUse short q rest

def addUse (s : State) (short : String) (q : QualifiedName) : State :=
  { s with uses := setUse (Text.lower short) q s.uses }

end State

end PhpFlow
