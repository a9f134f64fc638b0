import PhpFlow.Issue.Collector
import PhpFlow.Json

/-!
# Reports

The issues of a collector as one line each, as a JSON document, or as counts.
-/
namespace PhpFlow

def Position.toJson (p : Position) : Json :=
  .object
    [("file", .ofText? p.file), ("line", .nat p.range.line), ("column", .nat p.range.column)]

def Issue.toJson (i : Issue) : Json :=
  .object
    ([("errorId", .string i.kind.id), ("message", .string i.message),
      ("severity", .string i.severity.word)] ++
      match i.position with
      | none => []
      | some p => [("location", p.toJson)])

inductive ReportFormat where
  | lines | json | summary
  deriving DecidableEq, Repr

namespace Collector

def countsJson (cs : List (String × Nat)) : Json := .object (cs.map fun (n, k) => (n, .nat k))

def byName (cs : List (String × Nat)) : List (String × Nat) :=
  cs.mergeSort fun a b => !(b.1 < a.1)

def linesReport (c : Collector) : String :=
  String.join (c.sorted.map fun i => i.toLine ++ "\n")

def jsonReport (c : Collector) : String :=
  (Json.object
    [("issues", .array (c.sorted.map Issue.toJson)), ("summary", countsJson c.summary),
     ("suppressed", countsJson (byName c.suppressed))]).toText ++ "\n"

def padRight (width : Nat) (s : String) : String :=
  s ++ String.ofList (List.replicate (width - s.length) ' ')

def padLeft (width : Nat) (s : String) : String :=
  String.ofList (List.replicate (width - s.length) ' ') ++ s

def severityParts (c : Collector) : List String :=
  Severity.all.filterMap fun s =>
    (c.summary.lookup s.word).map fun n => toString n ++ " " ++ s.word

def summaryReport (c : Collector) : String :=
  let rows := (byName (counts (c.issues.map (·.kind.id)))).map fun (name, n) =>
    padRight 45 name ++ " " ++ padLeft 5 (toString n) ++ "\n"
  let parts := c.severityParts
  let total := "\n--- " ++ toString c.issues.length ++ " issue(s)" ++
    (if parts.isEmpty then "" else ": " ++ ", ".intercalate parts) ++ " ---\n"
  let hidden := ", ".intercalate
    ((byName c.suppressed).map fun (name, n) => toString n ++ " " ++ name)
  let tail :=
    if c.suppressed.isEmpty then ""
    else "--- " ++ toString c.suppressedCount ++ " suppressed: " ++ hidden ++ " ---\n"
  String.join rows ++ total ++ tail

def report (c : Collector) : ReportFormat → String
  | .lines => c.linesReport
  | .json => c.jsonReport
  | .summary => c.summaryReport

end Collector

end PhpFlow
