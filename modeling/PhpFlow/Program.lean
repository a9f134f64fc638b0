import PhpFlow.Declaration

/-!
# Analysis of files

A file is analysed in two rounds: its declarations are entered, and then its code is followed. Several
files may share a symbol table, in which case all declarations are entered before any code is followed.
-/
namespace PhpFlow

structure Analysis where
  /-- False if a syntax error outside functions ended the analysis. -/
  completed : Bool
  state : State

namespace Analysis

def fileScope? (a : Analysis) : Option Scope :=
  a.state.fileFrame.scopes.getLast?.bind a.state.arena.scope?

def returnType (a : Analysis) : Option TypeUnion := a.state.fileFrame.returnType

end Analysis

def Config.collector (c : Config) : Except String Collector :=
  c.threshold.map fun t => Collector.new t (c.disabledIssues.filterMap Scalar.text?)

def collectFile (program : Stmt) (symbols : SymbolTable) (config : Config) (file : Option String) :
    Except Fault SymbolTable :=
  match program.collect (State.new symbols config file .discarding) with
  | (.ok _, s) => .ok s.symbols
  | (.error e, _) => .error e

/-- Follows the code of a file, after its declarations have been entered if `collect` is set. -/
def analyzeFile (program : Stmt) (symbols : SymbolTable) (config : Config) (sink : Sink)
    (file : Option String) (collect : Bool) : Except Fault Analysis :=
  let run : Step Bool := do
    if collect then program.collect
    program.analyze .program
  match run (State.new symbols config file sink) with
  | (.ok completed, s) => .ok ⟨completed, s⟩
  | (.error e, _) => .error e

end PhpFlow
