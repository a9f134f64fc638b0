import PhpFlow.Text.Blank

/-!
# The grammar of type texts

    union       = alternative ("|" alternative)*
    alternative = "?"? head "[]"*
    head        = name "::" word
                | "array" "{" (entry ("," entry)*)? ","? "}"
                | "callable" "(" (argument ("," argument)*)? ")" (":" result)?
                | "(" union ("," union)* ")"
                | name "<" ("*" | union ("," union)*) ">"
                | name
    entry       = ((number | word) "?"? ":")? union
    argument    = union variable?
    result      = "(" union ")" | alternative
    name        = "\" word ("\" word)* | word ("\" word)*

Space may stand between any two parts, but not inside a name or a number. The first form of a head that
fits is taken. A text is read as far as it goes, so that a type can be cut off the front of a line.
-/
namespace PhpFlow

/-- A reader takes a part from the front of a text and leaves the rest. -/
abbrev Reader (α : Type) := List Char → Option (α × List Char)

namespace Reader

def skip (cs : List Char) : List Char := cs.dropWhile Text.isSpace

def char (c : Char) : Reader Unit
  | [] => none
  | d :: cs => if c = d then some ((), cs) else none

def keyword : List Char → Reader Unit
  | [], cs => some ((), cs)
  | _ :: _, [] => none
  | w :: ws, c :: cs => if c.toLower = w then keyword ws cs else none

def isWordStart (c : Char) : Bool := c.isAlpha || c = '_'

def isWordPart (c : Char) : Bool := c.isAlphanum || c = '_' || c = '-'

def word : Reader (List Char)
  | [] => none
  | c :: cs =>
    if isWordStart c then some (c :: cs.takeWhile isWordPart, cs.dropWhile isWordPart) else none

/-- Further parts, each after the character `sep` with optional space around it; at most `n`. -/
def more {α : Type} (sep : Char) (part : Reader α) : Nat → List Char → List α × List Char
  | 0, cs => ([], cs)
  | n + 1, cs =>
    match char sep (skip cs) with
    | none => ([], cs)
    | some (_, afterSep) =>
      match part (skip afterSep) with
      | none => ([], cs)
      | some (a, rest) =>
        let (as, rest) := more sep part n rest
        (a :: as, rest)

def separated {α : Type} (sep : Char) (part : Reader α) : Reader (List α) := fun cs =>
  match part cs with
  | none => none
  | some (a, rest) =>
    let (as, rest) := more sep part rest.length rest
    some (a :: as, rest)

/-- Further words of a qualified name, each directly after a backslash; at most `n`. -/
def segments : Nat → List Char → List Char × List Char
  | 0, cs => ([], cs)
  | n + 1, cs =>
    match cs with
    | '\\' :: afterSlash =>
      match word afterSlash with
      | none => ([], cs)
      | some (w, rest) =>
        let (ws, rest) := segments n rest
        ('\\' :: w ++ ws, rest)
    | _ => ([], cs)

def name : Reader String := fun cs =>
  match cs with
  | '\\' :: _ =>
    match segments cs.length cs with
    | ([], _) => none
    | (n, rest) => some (String.ofList n, rest)
  | _ =>
    match word cs with
    | none => none
    | some (w, rest) =>
      let (ws, rest) := segments rest.length rest
      some (String.ofList (w ++ ws), rest)

end Reader

/-- The label of an entry of a shape, as written. -/
inductive EntryLabel where
  | number (negative : Bool) (digits : List Char)
  | word (s : String)
  deriving DecidableEq, Repr

mutual

inductive TypeHead where
  | constant (owner constant : String)
  | shape (entries : List TypeEntry)
  | callable (args : List TypeExpr) (result : Option TypeExpr)
  | tuple (items : List TypeExpr)
  | generic (name : String) (args : List TypeExpr)
  | genericAny (name : String)
  | name (text : String)

structure TypeAlternative where
  nullable : Bool
  head : TypeHead
  suffixes : Nat

structure TypeExpr where
  alternatives : List TypeAlternative

/-- An entry of a shape, with its label and whether it may be absent. -/
structure TypeEntry where
  label : Option EntryLabel
  optional : Bool
  type : TypeExpr

end

namespace Reader

def union (alt : Reader TypeAlternative) : Reader TypeExpr := fun cs =>
  (separated '|' alt (skip cs)).map fun (as, rest) => (⟨as⟩, rest)

def number : Reader EntryLabel := fun cs =>
  let (negative, cs) :=
    match cs with
    | '-' :: rest => (true, rest)
    | _ => (false, cs)
  match cs.takeWhile Char.isDigit with
  | [] => none
  | ds => some (.number negative ds, cs.dropWhile Char.isDigit)

def label : Reader EntryLabel := fun cs =>
  match number cs with
  | some r => some r
  | none => (word cs).map fun (w, rest) => (.word (String.ofList w), rest)

/-- A label, an optional question mark and a colon that no second colon follows. -/
def entryLabel : Reader (EntryLabel × Bool) := fun cs =>
  match label cs with
  | none => none
  | some (l, rest) =>
    let (optional, rest) :=
      match skip rest with
      | '?' :: rest => (true, rest)
      | rest => (false, rest)
    match skip rest with
    | ':' :: ':' :: _ => none
    | ':' :: rest => some ((l, optional), rest)
    | _ => none

def entry (u : Reader TypeExpr) : Reader TypeEntry := fun cs =>
  match entryLabel cs with
  | some ((l, optional), rest) => (u (skip rest)).map fun (t, rest) => (⟨some l, optional, t⟩, rest)
  | none => (u (skip cs)).map fun (t, rest) => (⟨none, false, t⟩, rest)

/-- Reads `close` after optional space. -/
def closing {α : Type} (close : Char) (a : α) (cs : List Char) : Option (α × List Char) :=
  (char close (skip cs)).map fun (_, rest) => (a, rest)

def constant : Reader TypeHead := fun cs =>
  match name cs with
  | none => none
  | some (owner, rest) =>
    match skip rest with
    | ':' :: ':' :: rest =>
      (word (skip rest)).map fun (w, rest) => (.constant owner (String.ofList w), rest)
    | _ => none

def shape (u : Reader TypeExpr) : Reader TypeHead := fun cs =>
  match keyword ['a', 'r', 'r', 'a', 'y'] cs with
  | none => none
  | some (_, rest) =>
    match char '\x7b' (skip rest) with
    | none => none
    | some (_, rest) =>
      let (entries, rest) := (separated ',' (entry u) (skip rest)).getD ([], skip rest)
      let rest :=
        match skip rest with
        | ',' :: rest => rest
        | rest => rest
      closing '\x7d' (.shape entries) rest

/-- A variable name after an argument's type, which is passed over. -/
def argumentName (cs : List Char) : Option (List Char) :=
  let cs :=
    match cs with
    | '&' :: rest => rest
    | _ => cs
  let cs :=
    match cs with
    | '.' :: '.' :: '.' :: rest => rest
    | _ => cs
  match cs with
  | '$' :: c :: rest =>
    if isWordStart c then some (rest.dropWhile fun d => d.isAlphanum || d = '_') else none
  | _ => none

def argument (u : Reader TypeExpr) : Reader TypeExpr := fun cs =>
  (u cs).map fun (t, rest) => (t, (argumentName (skip rest)).getD rest)

/-- The result of a callable: a union in parentheses, or one alternative. -/
def result (alt : Reader TypeAlternative) : Reader TypeExpr := fun cs =>
  let inner :=
    match cs with
    | '(' :: rest =>
      match union alt (skip rest) with
      | some (t, rest) => closing ')' t rest
      | none => none
    | _ => none
  match inner with
  | some r => some r
  | none => (alt cs).map fun (a, rest) => (⟨[a]⟩, rest)

def callable (alt : Reader TypeAlternative) : Reader TypeHead := fun cs =>
  match keyword ['c', 'a', 'l', 'l', 'a', 'b', 'l', 'e'] cs with
  | none => none
  | some (_, rest) =>
    match char '(' (skip rest) with
    | none => none
    | some (_, rest) =>
      let (args, rest) := (separated ',' (argument (union alt)) (skip rest)).getD ([], skip rest)
      match char ')' (skip rest) with
      | none => none
      | some (_, rest) =>
        match skip rest with
        | ':' :: afterColon =>
          match result alt (skip afterColon) with
          | some (t, rest) => some (.callable args (some t), rest)
          | none => some (.callable args none, rest)
        | _ => some (.callable args none, rest)

def tuple (u : Reader TypeExpr) : Reader TypeHead
  | '(' :: rest =>
    match separated ',' u (skip rest) with
    | some (items, rest) => closing ')' (.tuple items) rest
    | none => none
  | _ => none

def generic (u : Reader TypeExpr) : Reader TypeHead := fun cs =>
  match name cs with
  | none => none
  | some (n, rest) =>
    match char '<' (skip rest) with
    | none => none
    | some (_, rest) =>
      match skip rest with
      | '*' :: rest => closing '>' (.genericAny n) rest
      | rest =>
        match separated ',' u rest with
        | some (args, rest) => closing '>' (.generic n args) rest
        | none => none

def head (alt : Reader TypeAlternative) : Reader TypeHead := fun cs =>
  constant cs <|> shape (union alt) cs <|> callable alt cs <|> tuple (union alt) cs <|>
    generic (union alt) cs <|> (name cs).map fun (n, rest) => (.name n, rest)

def brackets : Nat → List Char → Nat × List Char
  | 0, cs => (0, cs)
  | n + 1, cs =>
    match skip cs with
    | '[' :: ']' :: rest =>
      let (k, rest) := brackets n rest
      (k + 1, rest)
    | _ => (0, cs)

/-- An alternative whose inner alternatives `alt` reads. -/
def alternativeStep (alt : Reader TypeAlternative) : Reader TypeAlternative := fun cs =>
  let (nullable, cs) :=
    match cs with
    | '?' :: rest => (true, skip rest)
    | _ => (false, cs)
  (head alt cs).map fun (h, rest) =>
    let (k, rest) := brackets rest.length rest
    (⟨nullable, h, k⟩, rest)

def alternative : Nat → Reader TypeAlternative
  | 0 => fun _ => none
  | n + 1 => alternativeStep (alternative n)

end Reader

/-- The longest type at the front of a text. Each level of nesting takes at least one character, so the
length of the text bounds it. -/
def TypeExpr.read? (cs : List Char) : Option (TypeExpr × List Char) :=
  Reader.union (Reader.alternative cs.length) cs

end PhpFlow
