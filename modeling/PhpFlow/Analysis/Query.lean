import PhpFlow.Analysis.State

/-!
# Queries

A query looks at the state of an analysis and leaves it as it is. Besides its answer it gives the issues
it has found on the way, also when it ends in a fault.
-/
namespace PhpFlow

def Query (α : Type) : Type := State → Except Fault α × List Issue

namespace Query

variable {α β : Type}

def pure (a : α) : Query α := fun _ => (.ok a, [])

def bind (q : Query α) (f : α → Query β) : Query β := fun s =>
  match q s with
  | (.error e, found) => (.error e, found)
  | (.ok a, found) =>
    let (r, more) := f a s
    (r, found ++ more)

instance : Monad Query where
  pure := Query.pure
  bind := Query.bind

/-- A question that the state answers without any issue. -/
def ask (f : State → α) : Query α := fun s => (.ok (f s), [])

def askFault (f : State → Except Fault α) : Query α := fun s => (f s, [])

def ofExcept (r : Except Fault α) : Query α := fun _ => (r, [])

def report (kind : IssueKind) (message : String) (range : Option Range) : Query Unit := fun s =>
  (.ok (), [⟨kind, message, range.map s.position⟩])

/-- Notes something that the analysis does not cover. -/
def reportMissing (message : String) (range : Option Range) : Query Unit :=
  report .missingCapability message range

/-- An internal fault becomes an issue at the given place, and the answer is unknown. -/
def guarded (range : Range) (q : Query (Option α)) : Query (Option α) := fun s =>
  match q s with
  | (.ok a, found) => (.ok a, found)
  | (.error e, found) =>
    if e.isInternal then
      (.ok none, found ++ [⟨.internalError, e.message, some (s.position range)⟩])
    else (.error e, found)

end Query

end PhpFlow
