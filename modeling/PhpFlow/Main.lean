import PhpFlow.CommandLine.Run
import PhpFlow.Concrete.Written

/-!
# The program

The tree of a source file `x` is read from the file `x.tree` beside it, that of standard input from
`-.tree`.
-/
namespace PhpFlow

def readText? (path : String) : IO (Option String) := do
  try
    let bytes ← IO.FS.readBinFile path
    return some (Text.decode bytes.data.toList)
  catch _ => return none

def readTree? (path : String) : IO (Option Concrete) := do
  return (← readText? (path ++ ".tree")).bind Concrete.ofText?

def Workspace.visit (w : Workspace) (path : Path) : IO Workspace := do
  let names := w.resolve path
  match ← readText? path.toText with
  | some text =>
    let tree ← readTree? path.toText
    return { w with files := ⟨names, text, tree⟩ :: w.files }
  | none =>
    let parents := Workspace.above names.reverse
    let here ← IO.currentDir
    let found ← (names :: parents).filterM fun d => (here / (Path.absolute d).toText).isDir
    return { w with directories := found ++ w.directories }

/-- The file that an argument names, unless it is beyond reach. -/
def Workspace.source? (w : Workspace) (arg : String) : Option Path :=
  if arg = "-" then none else ((Path.ofText arg).expand w.homes).toOption

/-- The files that a command names, and the configuration files that may belong to them. -/
def CommandLine.Command.paths (w : Workspace) : CommandLine.Command → List Path
  | .analyze files s =>
    let sources := files.filterMap w.source?
    let settings := sources.flatMap fun p =>
      (Workspace.above ("" :: (w.resolve p).reverse)).map fun d => Path.absolute (d ++ [Config.fileName])
    (s.config.toList.map Path.ofText) ++ sources ++ settings
  | .dump file _ => (w.source? file).toList
  | .type _ => []

def CommandLine.Command.readsInput : CommandLine.Command → Bool
  | .analyze files _ => files.contains "-"
  | .dump file _ => file = "-"
  | .type _ => false

def gather (command : CommandLine.Command) : IO Workspace := do
  let here := Path.ofText (← IO.currentDir).toString
  let home := (← IO.getEnv "HOME").map fun h => ("", Path.ofText h)
  let mut w : Workspace := ⟨here.names, [], none, [], home.toList⟩
  if command.readsInput then
    let text ← (← IO.getStdin).readToEnd
    w := { w with input := some ⟨[], text, ← readTree? "-"⟩ }
  for path in command.paths w do
    w ← w.visit path
  return w

end PhpFlow

open PhpFlow in
def main (args : List String) : IO UInt32 := do
  let w ←
    match CommandLine.request args with
    | .run _ command => gather command
    | _ => pure ⟨[], [], none, [], []⟩
  match CommandLine.run w args with
  | .ok outcome =>
    IO.print outcome.output
    for record in outcome.log do
      IO.eprintln record.toText
    return outcome.exitCode.toUInt32
  | .error (.fault f) =>
    IO.eprintln f.message
    return 1
  | .error (.build e) =>
    IO.eprintln e.message
    return 1
  | .error (.obstacle o) =>
    IO.eprintln o.message
    return 1
