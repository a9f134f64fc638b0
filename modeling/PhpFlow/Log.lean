/-!
# Log records

What a run has to say besides its output. A computation that logs keeps its records when it fails.
-/
namespace PhpFlow

inductive LogLevel where
  | info | warning | error
  deriving DecidableEq, Repr

namespace LogLevel

def word : LogLevel → String
  | info => "INFO"
  | warning => "WARNING"
  | error => "ERROR"

def rank : LogLevel → Nat
  | info => 0
  | warning => 1
  | error => 2

end LogLevel

inductive LogSource where
  | command | config | reading | analysis
  deriving DecidableEq, Repr

def LogSource.name : LogSource → String
  | command => "phpanalyze"
  | config => "phpanalyze.config"
  | reading => "phpanalyze.frontend"
  | analysis => "phpanalyze.analyzer"

structure LogRecord where
  level : LogLevel
  source : LogSource
  message : String
  deriving DecidableEq, Repr

def LogRecord.toText (r : LogRecord) : String :=
  r.level.word ++ " " ++ r.source.name ++ ": " ++ r.message

/-- A computation that may fail and that logs either way. -/
def Logged (ε α : Type) : Type := Except ε α × List LogRecord

namespace Logged

variable {ε α β : Type}

def pure (a : α) : Logged ε α := (.ok a, [])

def fail (e : ε) : Logged ε α := (.error e, [])

def bind (m : Logged ε α) (f : α → Logged ε β) : Logged ε β :=
  match m with
  | (.ok a, log) =>
    let (r, more) := f a
    (r, log ++ more)
  | (.error e, log) => (.error e, log)

instance : Monad (Logged ε) where
  pure := Logged.pure
  bind := Logged.bind

def log (level : LogLevel) (source : LogSource) (message : String) : Logged ε Unit :=
  (.ok (), [⟨level, source, message⟩])

def abort (source : LogSource) (message : String) (e : ε) : Logged ε α :=
  (.error e, [⟨.error, source, message⟩])

def rescue {δ : Type} (m : Logged δ α) (f : δ → Logged ε α) : Logged ε α :=
  match m with
  | (.ok a, log) => (.ok a, log)
  | (.error e, log) =>
    let (r, more) := f e
    (r, log ++ more)

def ofExcept {δ : Type} (x : Except δ α) (f : δ → Logged ε α) : Logged ε α :=
  match x with
  | .ok a => pure a
  | .error e => f e

def ofOption (x : Option α) (e : ε) : Logged ε α :=
  match x with
  | some a => pure a
  | none => fail e

end Logged

end PhpFlow
