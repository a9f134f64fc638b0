import PhpFlow.Text.Newline
import PhpFlow.Toml.Value

/-!
# TOML documents

A document is a list of statements: table headers, headers of lists of tables, and keys with values, which
belong to the table of the last header. No table is opened twice and no key is given twice.
-/
namespace PhpFlow.Toml

structure Document where
  table : Table := []
  here : List String := []
  /-- Tables that a header must not open again and a key must not pass. -/
  opened : List (List String) := []
  /-- Tables that keys have passed since the last header. -/
  passed : List (List String) := []
  /-- Values that nothing may be added to. -/
  closed : List (List String) := []

namespace Document

def header (path : List String) (d : Document) : Option Document := do
  let opened := d.passed ++ d.opened
  if opened.contains path || reaches d.closed path then none
  else
    let table ← alter some path d.table
    some { d with table, here := path, opened := path :: opened, passed := [] }

def extend (k : String) (t : Table) : Option Table :=
  match Setting.lookup? k t with
  | none => some (t ++ [(k, .list [.table []])])
  | some (.list items) => some (replace k (.list (items ++ [.table []])) t)
  | some _ => none

/-- Opens a new table in a list of tables; what the one before it opened may be opened again. -/
def listHeader (path : List String) (d : Document) : Option Document := do
  if reaches d.closed path then none
  else
    let name ← path.getLast?
    let table ← alter (extend name) path.dropLast d.table
    let opened := (d.passed ++ d.opened).filter fun p => !path.isPrefixOf p
    let closed := d.closed.filter fun p => !path.isPrefixOf p
    some { table, here := path, opened := path :: opened, passed := [], closed }

/-- The tables that a key passes. -/
def passedBy (here path : List String) : List (List String) :=
  (List.range (path.length - 1)).map fun i => here ++ path.take (i + 1)

def assign (path : List String) (v : Setting) (d : Document) : Option Document := do
  let onWay := passedBy d.here path
  let whole := d.here ++ path
  if onWay.any d.opened.contains || reaches d.closed whole.dropLast then none
  else
    let table ← put whole v d.table
    some { d with
      table
      passed := onWay ++ d.passed
      closed := if isClosed v then whole :: d.closed else d.closed }

def statement (d : Document) : List Char → Except Error (Document × List Char)
  | '[' :: '[' :: cs => do
    let (path, rest) ← need (key (skipBlanks cs))
    let d ← need (d.listHeader path)
    match rest with
    | ']' :: ']' :: rest => return (d, rest)
    | _ => throw .malformed
  | '[' :: cs => do
    let (path, rest) ← need (key (skipBlanks cs))
    let d ← need (d.header path)
    match rest with
    | ']' :: rest => return (d, rest)
    | _ => throw .malformed
  | cs => do
    let (path, rest) ← need (keyBeforeValue cs)
    let (v, rest) ← value rest
    let d ← need (d.assign path v)
    return (d, rest)

def endLine (cs : List Char) : Option (List Char) :=
  let (comment, rest) :=
    match skipBlanks cs with
    | '#' :: cs => (cs.takeWhile (· != '\n'), cs.dropWhile (· != '\n'))
    | cs => ([], cs)
  if comment.any isControl then none
  else
    match rest with
    | [] => some []
    | '\n' :: rest => some rest
    | _ => none

/-- Reads statements, of which there are fewer than the fuel. -/
def statements : Nat → Document → List Char → Except Error Document
  | 0, _, _ => .error .malformed
  | fuel + 1, d, cs =>
    match skipBlanks cs with
    | [] => .ok d
    | '\n' :: rest => statements fuel d rest
    | '#' :: rest => do statements fuel d (← need (endLine ('#' :: rest)))
    | cs => do
      let (d, rest) ← d.statement cs
      statements fuel d (← need (endLine rest))

end Document

def read (text : String) : Except Error Table :=
  let cs := Text.dropReturns text.toList
  (Document.statements (cs.length + 1) {} cs).map (·.table)

end PhpFlow.Toml
