import PhpFlow.CommandLine.Switch
import PhpFlow.Issue.Report
import PhpFlow.Log

/-!
# Commands

Files are analysed, the tree of a file is dumped, or a type is written in its canonical form.
-/
namespace PhpFlow.CommandLine

inductive DumpFormat where
  | sexp | json
  deriving DecidableEq, Repr

structure AnalyzeSettings where
  format : ReportFormat := .lines
  config : Option String := none
  minSeverity : Option String := none
  disabled : List String := []
  deriving DecidableEq, Repr

inductive Command where
  | analyze (files : List String) (settings : AnalyzeSettings)
  | dump (file : String) (format : DumpFormat)
  | type (text : String)
  deriving DecidableEq, Repr

structure Verbosity where
  verbose : Nat := 0
  quiet : Bool := false
  deriving DecidableEq, Repr

def Verbosity.level (v : Verbosity) : LogLevel :=
  if v.quiet then .error else if v.verbose = 0 then .warning else .info

inductive Request where
  | refused
  | inquiry (i : Inquiry)
  | run (verbosity : Verbosity) (command : Command)
  deriving DecidableEq, Repr

def helpSwitch {σ : Type} : Switch σ := ⟨["-h", "--help"], .inquiry .help⟩

def verbositySwitches : List (Switch Verbosity) :=
  [helpSwitch, ⟨["--version"], .inquiry .version⟩,
   ⟨["-v", "--verbose"], .flag fun v => { v with verbose := v.verbose + 1 }⟩,
   ⟨["-q", "--quiet"], .flag fun v => { v with quiet := true }⟩]

def reportFormat? : String → Option ReportFormat
  | "gcc" => some .lines
  | "json" => some .json
  | "summary" => some .summary
  | _ => none

def dumpFormat? : String → Option DumpFormat
  | "sexp" => some .sexp
  | "json" => some .json
  | _ => none

def analyzeSwitches : List (Switch AnalyzeSettings) :=
  [helpSwitch,
   ⟨["-f", "--format"], .value fun t s => (reportFormat? t).map fun format => { s with format }⟩,
   ⟨["-c", "--config"], .value fun t s => some { s with config := some t }⟩,
   ⟨["--min-severity"], .value fun t s =>
     if (Severity.all.map Severity.word).contains t then some { s with minSeverity := some t } else none⟩,
   ⟨["--disable"], .value fun t s => some { s with disabled := s.disabled ++ [t] }⟩]

def dumpSwitches : List (Switch DumpFormat) :=
  [helpSwitch, ⟨["-f", "--format"], .value fun t _ => dumpFormat? t⟩]

def typeSwitches : List (Switch Unit) := [helpSwitch]

/-- A command from its scanned arguments; nothing may be out of place. -/
def commandOf {σ : Type} (verbosity : Verbosity) (stray : Bool) (make : σ → List String → Option Command) :
    Scanned σ → Request
  | .refused => .refused
  | .inquiry i => .inquiry i
  | .done s =>
    if stray || s.stray then .refused
    else
      match make s.settings s.words with
      | none => .refused
      | some c => .run verbosity c

def request (args : List String) : Request :=
  match scan verbositySwitches .command {} args with
  | .refused => .refused
  | .inquiry i => .inquiry i
  | .done s =>
    match s.words.head? with
    | some "analyze" =>
      commandOf s.settings s.stray (fun o files => some (.analyze files o))
        (scan analyzeSwitches .many {} s.rest)
    | some "parse" =>
      commandOf s.settings s.stray (fun format files => files.head?.map (.dump · format))
        (scan dumpSwitches .one .sexp s.rest)
    | some "type" =>
      commandOf s.settings s.stray (fun _ texts => texts.head?.map .type)
        (scan typeSwitches .one () s.rest)
    | _ => .refused

end PhpFlow.CommandLine
