import PhpFlow.CommandLine.Command
import PhpFlow.Concrete.Program
import PhpFlow.Config.File
import PhpFlow.Program
import PhpFlow.Syntax.Dump

/-!
# Running commands

A run gives an exit code, an output and a log: code 0 if no error was found in the analysed files, 1 if
there was one or a type could not be read, 2 if the run could not be done.
-/
namespace PhpFlow.CommandLine

structure Outcome where
  exitCode : Nat
  output : String
  log : List LogRecord
  deriving DecidableEq, Repr

inductive Failure where
  | build (e : BuildError)
  | fault (f : Fault)
  | obstacle (o : Obstacle)

inductive Ending where
  | exit (code : Nat)
  | failure (f : Failure)

abbrev Run (α : Type) := Logged Ending α

namespace Run

def log (level : LogLevel) (message : String) : Run Unit := Logged.log level .command message

def giveUp {α : Type} (message : String) : Run α := Logged.abort .command message (.exit 2)

def orFault {α : Type} (x : Except Fault α) : Run α :=
  Logged.ofExcept x fun f => .fail (.failure (.fault f))

def orObstacle {α : Type} (x : Except Obstacle α) : Run α :=
  Logged.ofExcept x fun o => .fail (.failure (.obstacle o))

end Run

/-! ## Files -/

structure SourceUnit where
  name : String
  program : Stmt

/-- The name under which a file is reported, and the file; a dash is standard input. -/
def readFile (w : Workspace) (arg : String) : Run (String × SourceFile) :=
  if arg = "-" then return ("<stdin>", w.input.getD ⟨[], "", none⟩)
  else do
    let path ← Run.orObstacle ((Path.ofText arg).expand w.homes)
    Run.orObstacle path.check
    let file ← Logged.ofExcept (w.read path) fun e =>
      Run.giveUp ("cannot read " ++ arg ++ ": " ++ e.message path)
    return (arg, { file with text := String.ofList (Text.unixLines file.text.toList) })

def readProgram (w : Workspace) (arg : String) : Run SourceUnit := do
  let (name, file) ← readFile w arg
  match file.tree with
  | none => Run.giveUp (name ++ ": no tree was given for this file")
  | some tree =>
    if tree.hasError then
      Logged.log .info .reading ((if name = "" then "<input>" else name) ++ ": source contains syntax errors")
    match tree.program (.ofText file.text) with
    | .ok program => return ⟨name, program⟩
    | .error (.unexpected range expected found) =>
      Run.giveUp (name ++ ": " ++ (BuildError.unexpected range expected found).message)
    | .error e => Logged.fail (.failure (.build e))

/-! ## Commands -/

/-- The configuration of an analysis: the one named by the arguments, else the one nearest to the first
file. -/
def fileConfig (w : Workspace) (files : List String) (s : AnalyzeSettings) : Logged LoadError Config :=
  match s.config with
  | some path => if path = "" then nearest else Config.load w (.ofText path)
  | none => nearest
where
  nearest : Logged LoadError Config :=
    match files.head? with
    | some first => if first = "-" then return {} else Config.discover w (.ofText first)
    | none => return {}

def loadConfig (w : Workspace) (files : List String) (s : AnalyzeSettings) : Run Config := do
  let config ← Logged.rescue (fileConfig w files s) fun e =>
    match e with
    | .complaint e => Run.giveUp ("configuration error: " ++ e.message)
    | .obstacle o => .fail (.failure (.obstacle o))
  let config :=
    { config.disable s.disabled with minSeverity := s.minSeverity.getD config.minSeverity }
  let warnings ← Run.orObstacle config.warnings
  for warning in warnings do
    Run.log .warning ("config: " ++ warning)
  return config

def collectUnits (config : Config) : SymbolTable → List SourceUnit → Run SymbolTable
  | symbols, [] => return symbols
  | symbols, u :: us => do
    let symbols ← Run.orFault (collectFile u.program symbols config (some u.name))
    collectUnits config symbols us

def followUnits (config : Config) : SymbolTable → Collector → List SourceUnit → Run Collector
  | _, collector, [] => return collector
  | symbols, collector, u :: us => do
    Run.log .info ("Analysing " ++ u.name)
    let a ← Run.orFault
      (analyzeFile u.program symbols config (.collecting collector) (some u.name) false)
    if !a.completed then
      Logged.log .info .analysis
        ((if u.name = "" then "<input>" else u.name) ++ ": analysis stopped at a syntax error")
      Run.log .warning (u.name ++ ": analysis stopped early at a syntax error")
    followUnits config a.state.symbols (a.state.sink.collector?.getD collector) us

def analyze (w : Workspace) (files : List String) (s : AnalyzeSettings) : Run (Nat × String) := do
  let config ← loadConfig w files s
  let collector ← Logged.ofExcept config.collector fun m => Run.giveUp ("configuration error: " ++ m)
  let units ← files.mapM (readProgram w)
  let symbols ← collectUnits config {} units
  Run.log .info ("Collected " ++ toString symbols.size ++ " symbol(s) from " ++ toString units.length ++
    " file(s)")
  let collector ← followUnits config symbols collector units
  if collector.suppressedCount ≠ 0 then
    Run.log .info (toString collector.suppressedCount ++ " issue(s) suppressed by configuration")
  return (if collector.hasErrors then 1 else 0, collector.report s.format)

def dump (w : Workspace) (file : String) (format : DumpFormat) : Run (Nat × String) := do
  let u ← readProgram w file
  let tree := u.program.outline
  return (0, (match format with
    | .sexp => tree.sexp
    | .json => tree.toJson.toText) ++ "\n")

def canonical (text : String) : Run (Nat × String) :=
  match NameContext.global.read text with
  | .ok u => return (0, (← Run.orFault u.write) ++ "\n")
  | .error e => Logged.abort .command e.message (.exit 1)

def Command.run (w : Workspace) : Command → Run (Nat × String)
  | .analyze files s => CommandLine.analyze w files s
  | .dump file format => CommandLine.dump w file format
  | .type text => canonical text

/-! ## The program -/

def versionText : String := "phpanalyze 0.1.0\n"

def helpText : String :=
  "usage: phpanalyze [-h] [--version] [-v] [-q] <command> ...\n\n" ++
  "commands:\n" ++
  "  analyze FILE... [-f gcc|json|summary] [-c PATH] [--min-severity SEVERITY] [--disable ID]\n" ++
  "  parse FILE [-f sexp|json]\n" ++
  "  type TEXT\n"

def run (w : Workspace) (args : List String) : Except Failure Outcome :=
  match request args with
  | .refused => .ok ⟨2, "", []⟩
  | .inquiry .help => .ok ⟨0, helpText, []⟩
  | .inquiry .version => .ok ⟨0, versionText, []⟩
  | .run verbosity command =>
    let (result, log) := command.run w
    let shown := log.filter fun r => verbosity.level.rank ≤ r.level.rank
    match result with
    | .ok (code, output) => .ok ⟨code, output, shown⟩
    | .error (.exit code) => .ok ⟨code, "", shown⟩
    | .error (.failure f) => .error f

end PhpFlow.CommandLine
