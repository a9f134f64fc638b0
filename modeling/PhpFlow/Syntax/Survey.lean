import PhpFlow.Syntax.Outline

/-!
# Surveys of trees

A survey takes note of nodes of certain kinds. Where it does not know a kind it looks at the children;
where it does, it looks at them only if it is told to. A survey may promise to know all kinds of a domain.
-/
namespace PhpFlow

/-- A set of kinds that a survey may promise to know. -/
inductive KindDomain where
  | nodes | expressions | statements
  | only (k : NodeKind)
  deriving DecidableEq, Repr

def KindDomain.holds : KindDomain → NodeKind → Bool
  | nodes, _ => true
  | expressions, k => k.isExpression
  | statements, k => k.isStatement
  | only l, k => k == l

structure Survey where
  name : String
  known : List NodeKind
  /-- The domain whose kinds are all promised to be known, if there is one. -/
  promised : Option KindDomain
  descends : Bool

namespace Survey

def knows (s : Survey) (k : NodeKind) : Bool := s.known.contains k

def unhandled (s : Survey) : List NodeKind :=
  match s.promised with
  | none => []
  | some d => NodeKind.all.filter fun k => d.holds k && !s.knows k

def complaint? (s : Survey) : Option String :=
  match s.unhandled with
  | [] => none
  | ks => some (s.name ++ " does not handle: " ++ ", ".intercalate (ks.map NodeKind.title))

mutual

/-- The kinds of the nodes noted, in the order in which they are met. -/
def seen (s : Survey) : Outline → List NodeKind
  | ⟨k, _, fs⟩ =>
    if s.knows k then k :: (if s.descends then seenFields s fs else []) else seenFields s fs

def seenFields (s : Survey) : List (String × FieldValue) → List NodeKind
  | [] => []
  | (_, v) :: fs => seenField s v ++ seenFields s fs

def seenField (s : Survey) : FieldValue → List NodeKind
  | .node o => if o.kind = .comment then [] else seen s o
  | .nodes os => seenNodes s os
  | _ => []

def seenNodes (s : Survey) : List Outline → List NodeKind
  | [] => []
  | o :: os => if o.kind = .comment then seenNodes s os else seen s o ++ seenNodes s os

end

/-- What the survey says of the whole tree: the kind of its root if it knows it. -/
def result (s : Survey) (o : Outline) : Option NodeKind := if s.knows o.kind then some o.kind else none

end Survey

end PhpFlow
