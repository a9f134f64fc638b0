import PhpFlow.Issue.Basic

/-!
# Collecting issues

An expression may be looked at more than once, so an issue that has been seen before is not taken again.
A collector remembers every distinct issue in the order of its first emission. Those of a disabled kind
or below the threshold are suppressed: they are not shown, but counted.
-/
namespace PhpFlow

structure Collector where
  threshold : Severity
  disabled : List String
  /-- Every distinct issue emitted, oldest first. -/
  emitted : List Issue

namespace Collector

def new (threshold : Severity) (disabled : List String) : Collector := ⟨threshold, disabled, []⟩

def emit (c : Collector) (i : Issue) : Collector :=
  if c.emitted.contains i then c else { c with emitted := c.emitted ++ [i] }

def shows (c : Collector) (i : Issue) : Bool :=
  !c.disabled.contains i.kind.id && c.threshold.rank ≤ i.severity.rank

def issues (c : Collector) : List Issue := c.emitted.filter c.shows

def hidden (c : Collector) : List Issue := c.emitted.filter fun i => !c.shows i

/-- Adds one to the count of a name, which goes to the end if it is new. -/
def tally (name : String) : List (String × Nat) → List (String × Nat)
  | [] => [(name, 1)]
  | (n, k) :: rest => if n = name then (n, k + 1) :: rest else (n, k) :: tally name rest

def counts (names : List String) : List (String × Nat) :=
  names.foldl (fun acc n => tally n acc) []

def suppressed (c : Collector) : List (String × Nat) := counts (c.hidden.map (·.kind.id))

def suppressedCount (c : Collector) : Nat := c.hidden.length

def errors (c : Collector) : List Issue := c.issues.filter fun i => i.severity == .error

def hasErrors (c : Collector) : Bool := c.issues.any fun i => i.severity == .error

def ofKind (c : Collector) (k : IssueKind) : List Issue := c.issues.filter fun i => i.kind == k

def summary (c : Collector) : List (String × Nat) := counts (c.issues.map (·.severity.word))

def fileKey (i : Issue) : String := (i.position.bind (·.file)).getD ""

def byteKey (i : Issue) : Int :=
  match i.position with
  | some p => p.range.startByte
  | none => -1

/-- By file, then by place; issues without a position come first. -/
def precedes (a b : Issue) : Bool :=
  fileKey a < fileKey b || (fileKey a = fileKey b && byteKey a ≤ byteKey b)

def sorted (c : Collector) : List Issue := c.issues.mergeSort precedes

def clear (c : Collector) : Collector := { c with emitted := [] }

end Collector

inductive Sink where
  | collecting (c : Collector)
  | discarding

def Sink.emit : Sink → Issue → Sink
  | collecting c, i => collecting (c.emit i)
  | discarding, _ => discarding

def Sink.collector? : Sink → Option Collector
  | collecting c => some c
  | discarding => none

def Sink.issues (s : Sink) : List Issue := (s.collector?.map Collector.issues).getD []

end PhpFlow
