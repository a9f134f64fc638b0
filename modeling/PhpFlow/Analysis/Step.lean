import PhpFlow.Analysis.Query

/-!
# Steps

A step of the analysis changes the state. What it changed before a fault stays changed.
-/
namespace PhpFlow

def Step (α : Type) : Type := State → Except Fault α × State

namespace Step

variable {α β : Type}

def pure (a : α) : Step α := fun s => (.ok a, s)

def bind (m : Step α) (f : α → Step β) : Step β := fun s =>
  match m s with
  | (.error e, s') => (.error e, s')
  | (.ok a, s') => f a s'

instance : Monad Step where
  pure := Step.pure
  bind := Step.bind

def modify (f : State → State) : Step Unit := fun s => (.ok (), f s)

def get (f : State → α) : Step α := fun s => (.ok (f s), s)

def getFault (f : State → Except Fault α) : Step α := fun s => (f s, s)

def fail (e : Fault) : Step α := fun s => (.error e, s)

def emit (s : State) (i : Issue) : State := { s with sink := s.sink.emit i }

def query (q : Query α) : Step α := fun s =>
  let (r, found) := q s
  (r, found.foldl emit s)

def report (kind : IssueKind) (message : String) (range : Option Range) : Step Unit :=
  query (Query.report kind message range)

def reportMissing (message : String) (range : Option Range) : Step Unit :=
  query (Query.reportMissing message range)

/-- Does `last` after `m`, however `m` ends. -/
def ensuring (m : Step α) (last : Step Unit) : Step α := fun s =>
  let (r, s') := m s
  match last s' with
  | (.ok _, s'') => (r, s'')
  | (.error e, s'') => (.error e, s'')

/-- An internal fault becomes an issue at the given place, and the answer is `fallback`. -/
def guarded (range : Range) (fallback : α) (m : Step α) : Step α := fun s =>
  match m s with
  | (.ok a, s') => (.ok a, s')
  | (.error e, s') =>
    if e.isInternal then
      (.ok fallback, emit s' ⟨.internalError, e.message, some (s'.position range)⟩)
    else (.error e, s')

def onArena (f : Arena → Except Fault (α × Arena)) : Step α := fun s =>
  match f s.arena with
  | .ok (a, arena) => (.ok a, { s with arena })
  | .error e => (.error e, s)

def currentHandle : Step Handle := getFault State.currentHandle

def branch (parent : Handle) (side : BranchSide) : Step Handle := onArena fun a => a.branch parent side

def merge (parent : Handle) (branches : List Handle) : Step Unit :=
  onArena fun a => (a.merge parent branches).map fun b => ((), b)

def discard (h : Handle) : Step Unit := modify fun s => { s with arena := s.arena.discard h }

def updateVar (name : String) (f : Variable → Variable) : Step Unit := do
  let h ← currentHandle
  onArena fun a => (a.updateVar h name f).map fun b => ((), b)

def write (name : String) (type : TypeUnion) (value : Option Value) (range : Option Range) :
    Step Unit := do
  let h ← currentHandle
  onArena fun a => (a.write h name type value range).map fun (_, b) => ((), b)

def pushScope (h : Handle) : Step Unit :=
  modify fun s => s.updateFrame fun f => { f with scopes := h :: f.scopes }

def popScope : Step Handle := fun s =>
  match s.currentFrame.scopes with
  | [] => (.error .noScopeToPop, s)
  | h :: rest => (.ok h, s.updateFrame fun f => { f with scopes := rest })

/-- Leaves a scope, which must be the one that was entered. -/
def leaveScope (h : Handle) : Step Unit := do
  let popped ← popScope
  if popped = h then pure () else fail (.corruptScopeStack popped h)

def inScope (h : Handle) (m : Step α) : Step α := do
  pushScope h
  ensuring (do let _ ← getFault fun s => s.arena.get h; m) (leaveScope h)

def enterLoop (s : State) : State := { s with loopDepth := s.loopDepth + 1 }

def leaveLoop (s : State) : State := { s with loopDepth := s.loopDepth - 1 }

def inLoop (m : Step α) : Step α := do
  modify enterLoop
  ensuring m (modify leaveLoop)

def enterFrame (name : Option QualifiedName) (s : State) : State :=
  let (root, arena) := s.arena.newRoot
  { s with arena, frames := ⟨name, [root], []⟩ :: s.frames, loopDepth := 0 }

def leaveFrame (loopDepth : Nat) (s : State) : State :=
  match s.frames with
  | [] => { s with loopDepth }
  | f :: fs => { s with frames := fs, loopDepth, arena := f.scopes.foldr (fun h a => a.discard h) s.arena }

/-- Analyses a function's code during `m`; the answer comes with what was returned. -/
def inFrame (name : Option QualifiedName) (m : Step α) : Step (α × Frame) := do
  let depth ← get (·.loopDepth)
  modify (enterFrame name)
  ensuring (do let a ← m; let f ← get State.currentFrame; Pure.pure (a, f))
    (modify (leaveFrame depth))

end Step

end PhpFlow
