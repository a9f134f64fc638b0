import PhpFlow.Scope.Variable

/-!
# Scopes

All scopes of an analysis live in one arena and are known by handles. A branch starts as a copy of its
parent. When every arm of a construct has been analysed, the arms are merged back into the parent and
discarded; a discarded scope is never used again.
-/
namespace PhpFlow

/-- Any integer can be asked for; only those an arena has given out are ever live. -/
abbrev Handle := Int

inductive BranchSide where
  | onTrue | onFalse | neutral
  deriving DecidableEq, Repr

namespace BranchSide

def word : BranchSide → String
  | onTrue => "true"
  | onFalse => "false"
  | neutral => "neutral"

def flip : BranchSide → BranchSide
  | onTrue => onFalse
  | onFalse => onTrue
  | neutral => neutral

end BranchSide

structure Scope where
  handle : Handle
  parent : Option Handle
  side : BranchSide
  vars : List Variable

namespace Scope

def var? (s : Scope) (name : String) : Option Variable := s.vars.find? fun v => v.name = name

def update (f : Variable → Variable) (name : String) : List Variable → List Variable
  | [] => [f { name }]
  | v :: vs => if v.name = name then f v :: vs else v :: update f name vs

def updateVar (s : Scope) (name : String) (f : Variable → Variable) : Scope :=
  { s with vars := update f name s.vars }

def firstOccurrences (names : List String) : List String :=
  names.foldl (fun acc n => if acc.contains n then acc else acc ++ [n]) []

/-- A variable of the target after the arms that it was copied to have been merged. What an arm has
beyond the target's own history, reads and references was added inside the arm. -/
def mergeVar (target : Scope) (arms : List Scope) (name : String) : Variable :=
  let base := target.var? name
  let baseWrites := (base.map (·.history.length)).getD 0
  let baseReads := (base.map (·.reads)).getD 0
  let baseRefs := (base.map (·.references.length)).getD 0
  let copies := arms.map fun arm => arm.var? name
  let present := copies.filterMap fun v => v
  let start : Variable :=
    match base, present with
    | some v, _ => v
    | none, first :: _ =>
      { name, isArgument := first.isArgument, declaredType := first.declaredType }
    | none, [] => { name }
  let liveSets := copies.map fun v => (v.map (·.live)).getD []
  let newWrites := present.flatMap fun v => v.history.drop baseWrites
  let joined := start.join liveSets newWrites (present.any (·.isPartial))
  { joined with
    reads := present.foldl (fun n v => n + (v.reads - baseReads)) joined.reads
    references := joined.references ++ present.flatMap fun v => v.references.drop baseRefs
    reportedUnknown := joined.reportedUnknown || present.any (·.reportedUnknown)
    commentType := joined.commentType <|> present.findSome? (·.commentType) }

def merge (target : Scope) (arms : List Scope) : Scope :=
  let names := firstOccurrences
    (target.vars.map (·.name) ++ arms.flatMap fun arm => arm.vars.map (·.name))
  { target with vars := names.map (target.mergeVar arms) }

end Scope

structure Arena where
  /-- Every scope ever made, at the place of its handle; a discarded one has left a gap. -/
  scopes : Array (Option Scope)
  nextWrite : Nat

namespace Arena

def empty : Arena := ⟨#[], 0⟩

def scope? (a : Arena) (h : Handle) : Option Scope :=
  if 0 ≤ h then (a.scopes[h.toNat]?).join else none

def get (a : Arena) (h : Handle) : Except Fault Scope :=
  match a.scope? h with
  | some s => .ok s
  | none => .error (.deadScope h)

def isLive (a : Arena) (h : Handle) : Bool := (a.scope? h).isSome

def liveCount (a : Arena) : Nat := a.scopes.countP Option.isSome

def liveHandles (a : Arena) : List Handle :=
  (List.range a.scopes.size).filterMap fun (i : Nat) => if a.isLive i then some (i : Handle) else none

def add (a : Arena) (parent : Option Handle) (side : BranchSide) (vars : List Variable) :
    Handle × Arena :=
  let h : Handle := a.scopes.size
  (h, { a with scopes := a.scopes.push (some ⟨h, parent, side, vars⟩) })

def newRoot (a : Arena) : Handle × Arena := a.add none .neutral []

/-- A branch has a copy of everything its parent knows. -/
def branch (a : Arena) (parent : Handle) (side : BranchSide) : Except Fault (Handle × Arena) := do
  let s ← a.get parent
  return a.add (some parent) side s.vars

/-- Discarding a scope that is not live changes nothing. -/
def discard (a : Arena) (h : Handle) : Arena :=
  if a.isLive h then { a with scopes := a.scopes.set! h.toNat none } else a

def put (a : Arena) (s : Scope) : Arena :=
  if a.isLive s.handle then { a with scopes := a.scopes.set! s.handle.toNat (some s) } else a

def updateVar (a : Arena) (h : Handle) (name : String) (f : Variable → Variable) :
    Except Fault Arena := do
  let s ← a.get h
  return a.put (s.updateVar name f)

def write (a : Arena) (h : Handle) (name : String) (type : TypeUnion) (value : Option Value)
    (range : Option Range) : Except Fault (Write × Arena) := do
  let w : Write := ⟨a.nextWrite, type, value, range⟩
  let b ← a.updateVar h name (·.write w)
  return (w, { b with nextWrite := a.nextWrite + 1 })

/-- Folds the arms of a construct back into its parent and discards them. -/
def merge (a : Arena) (parent : Handle) (branches : List Handle) : Except Fault Arena := do
  let target ← a.get parent
  let arms ← branches.mapM a.get
  return branches.foldl discard (a.put (target.merge arms))

end Arena

end PhpFlow
