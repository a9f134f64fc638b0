import PhpFlow.Issue.Basic
import PhpFlow.Setting

/-!
# Configuration

Which issues are shown, whether unused variables are reported, and whether values of variables written
in loops are kept.
-/
namespace PhpFlow

structure Config where
  minSeverity : String := "information"
  /-- The identifiers of the issues not to show, and whatever else is listed with them. -/
  disabledIssues : List Scalar := []
  reportUnused : Bool := true
  trackLoopValues : Bool := false
  deriving Repr

inductive ConfigError where
  | unreadable (path reason : String)
  | malformed (path : String)
  | notTable (path : String)
  | unknownKeys (keys : List String)
  | notIdList
  | notBoolean (key : String)
  | severityNotText
  deriving DecidableEq, Repr

/-- The complaint; what a malformed document is told to hold wrong is left to a mark. -/
def ConfigError.message : ConfigError → String
  | unreadable path reason => "cannot read " ++ path ++ ": " ++ reason
  | malformed path => path ++ ": <toml>"
  | notTable path => path ++ ": [phpanalyze] must be a table"
  | unknownKeys keys => "unknown configuration key(s): " ++ ", ".intercalate keys
  | notIdList => "disabled_issues must be a list of issue ids"
  | notBoolean key => key ++ " must be a boolean"
  | severityNotText => "min_severity must be a string"

/-- Why there is no configuration: a complaint about it, or an obstacle on the way to it. -/
inductive LoadError where
  | complaint (e : ConfigError)
  | obstacle (o : Obstacle)
  deriving DecidableEq, Repr

namespace Config

def knownKeys : List String :=
  ["min_severity", "disabled_issues", "report_unused_variables", "track_loop_values"]

def sortTexts (ts : List String) : List String :=
  (ts.eraseDups).mergeSort fun a b => !(b < a)

def threshold (c : Config) : Except String Severity := Severity.ofName c.minSeverity

def unknownIssue? (item : Scalar) : Except Obstacle (Option String) :=
  if (item.text?.bind IssueKind.ofId?).isSome then .ok none
  else item.toText.map fun t => some ("unknown issue id in disabled_issues: " ++ t)

/-- Complaints about settings that can still be used. -/
def warnings (c : Config) : Except Obstacle (List String) := do
  let items ← Scalar.sort c.disabledIssues
  let unknown ← items.mapM unknownIssue?
  return (match c.threshold with
    | .ok _ => []
    | .error m => [m]) ++ unknown.filterMap id

def boolSetting (key : String) (fallback : Bool) (entries : List (String × Setting)) :
    Except LoadError Bool :=
  match Setting.lookup? key entries with
  | none => .ok fallback
  | some (.scalar (.bool b)) => .ok b
  | some _ => .error (.complaint (.notBoolean key))

/-- Reads the settings of a table; the first fault in this order is reported: unknown keys, the list of
issues, the two switches, the severity, and that the list has no order. -/
def ofEntries (entries : List (String × Setting)) : Except LoadError Config := do
  let unknown := (entries.map (·.1)).filter fun k => !knownKeys.contains k
  if !unknown.isEmpty then throw (.complaint (.unknownKeys (sortTexts unknown)))
  let disabledIssues ←
    match Setting.lookup? "disabled_issues" entries with
    | none => pure []
    | some (.list items) => (Setting.items items).mapError .obstacle
    | some _ => throw (.complaint .notIdList)
  let reportUnused ← boolSetting "report_unused_variables" true entries
  let trackLoopValues ← boolSetting "track_loop_values" false entries
  let minSeverity ←
    match Setting.lookup? "min_severity" entries with
    | none => pure "information"
    | some (.scalar (.text s)) => pure s
    | some _ => throw (.complaint .severityNotText)
  let config : Config := { minSeverity, disabledIssues, reportUnused, trackLoopValues }
  let _ ← config.warnings.mapError .obstacle
  return config

def disable (c : Config) (ids : List String) : Config :=
  { c with disabledIssues := (c.disabledIssues ++ ids.map Scalar.text).eraseDups }

end Config

end PhpFlow
