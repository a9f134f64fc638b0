import PhpFlow.Source
import PhpFlow.Text.Lower
import PhpFlow.Text.Quoted

/-!
# Issues

A finding has a kind, a message and, as a rule, a position. The kind decides how severe it is.
-/
namespace PhpFlow

inductive Severity where
  | error | warning | style | information | debug
  deriving DecidableEq, Repr

namespace Severity

def all : List Severity := [error, warning, style, information, debug]

def word : Severity → String
  | error => "error"
  | warning => "warning"
  | style => "style"
  | information => "information"
  | debug => "debug"

/-- Greater is more severe. -/
def rank : Severity → Nat
  | debug => 0
  | information => 1
  | style => 2
  | warning => 3
  | error => 4

def unknownMessage (name : String) : String :=
  "unknown severity " ++ Text.quote name ++ "; expected one of " ++
    ", ".intercalate (all.map word)

def ofName (name : String) : Except String Severity :=
  match all.find? fun s => s.word = Text.lower name with
  | some s => .ok s
  | none => .error (unknownMessage name)

end Severity

inductive IssueKind where
  | unknownVariable | partialVariable | unusedVariable | divisionByZero | unsupportedOperands
  | docType | parseError | internalError | missingCapability
  deriving DecidableEq, Repr

namespace IssueKind

def all : List IssueKind :=
  [unknownVariable, partialVariable, unusedVariable, divisionByZero, unsupportedOperands, docType,
   parseError, internalError, missingCapability]

def id : IssueKind → String
  | unknownVariable => "unknown-variable"
  | partialVariable => "variable-not-initialized-in-all-branches"
  | unusedVariable => "unused-variable"
  | divisionByZero => "division-by-zero"
  | unsupportedOperands => "unsupported-operand-types"
  | docType => "phpdoc-type-error"
  | parseError => "parse-error"
  | internalError => "internal-error"
  | missingCapability => "missing-capability"

def severity : IssueKind → Severity
  | unknownVariable | partialVariable | docType => .warning
  | unusedVariable => .style
  | divisionByZero | unsupportedOperands | parseError => .error
  | internalError => .information
  | missingCapability => .debug

def ofId? (name : String) : Option IssueKind := all.find? fun k => k.id = name

end IssueKind

structure Issue where
  kind : IssueKind
  message : String
  position : Option Position
  deriving DecidableEq, Repr

namespace Issue

def severity (i : Issue) : Severity := i.kind.severity

def placeText (i : Issue) : String :=
  match i.position with
  | some p => p.toText
  | none => "<unknown>"

def toLine (i : Issue) : String :=
  i.placeText ++ ": " ++ i.severity.word ++ ": [" ++ i.kind.id ++ "] " ++ i.message

end Issue

end PhpFlow
