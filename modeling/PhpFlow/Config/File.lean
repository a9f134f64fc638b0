import PhpFlow.Config
import PhpFlow.Log
import PhpFlow.Toml.Document
import PhpFlow.Workspace

/-!
# Configuration files

A configuration is the table `phpanalyze` of a document or, if there is none, the table `phpanalyze` in
the table `tool`.
-/
namespace PhpFlow.Config

/-- What stands in a document for the configuration; without it there are no settings. -/
def settingOf (document : Toml.Table) : Except Obstacle Setting :=
  match Setting.lookup? "phpanalyze" document with
  | some setting => .ok setting
  | none =>
    match Setting.lookup? "tool" document with
    | none => .ok (.table [])
    | some (.table tool) => .ok ((Setting.lookup? "phpanalyze" tool).getD (.table []))
    | some other => .error (.noEntries other.kind)

/-- The entries of the configuration in a document, unless something else stands where the table belongs. -/
def entriesOf (path : Path) (document : Toml.Table) : Except LoadError Toml.Table := do
  match ← (settingOf document).mapError .obstacle with
  | .table entries => return entries
  | _ => throw (.complaint (.notTable path.toText))

def documentAt (w : Workspace) (path : Path) : Except LoadError Toml.Table := do
  path.check.mapError .obstacle
  let file ← (w.read path).mapError fun e => .complaint (.unreadable path.toText (e.message path))
  (Toml.read file.text).mapError fun e =>
    match e with
    | .malformed => .complaint (.malformed path.toText)
    | .tooManyDigits n => .obstacle (.tooManyDigits n)

def load (w : Workspace) (path : Path) : Logged LoadError Config := do
  let entries ← Logged.ofExcept (documentAt w path >>= entriesOf path) .fail
  Logged.log .info .config ("loaded configuration from " ++ path.toText)
  let config ← Logged.ofExcept (Config.ofEntries entries) .fail
  let warnings ← Logged.ofExcept config.warnings fun o => .fail (.obstacle o)
  for warning in warnings do
    Logged.log .warning .config ("config: " ++ warning)
  return config

def fileName : String := "phpanalyze.toml"

def discover (w : Workspace) (start : Path) : Logged LoadError Config := do
  match ← Logged.ofExcept (w.nearest fileName start) fun o => .fail (.obstacle o) with
  | some names => load w (.absolute names)
  | none => return {}

end PhpFlow.Config
