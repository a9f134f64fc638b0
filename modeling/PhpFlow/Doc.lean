import PhpFlow.Source
import PhpFlow.Text.Word
import PhpFlow.Type.Meaning

/-!
# Doc comments

A doc comment is a list of entries, one for every line that says something, each with the range of its
line. Types are kept as they are written; what they mean depends on where the comment stands. Tags with
the name of a tool in front, such as `@phpstan-param`, count as the plain tags.
-/
namespace PhpFlow

inductive DocTag where
  | var (type : String) (name : Option String) (description : String)
  | param (type : String) (name : Option String) (description : String) (variadic byRef : Bool)
  | returns (type description : String)
  | template (name : String) (bound : Option String)
  | description (text : String)
  /-- A tag that has no meaning here, or lacks what would give it one. -/
  | other (tag text : String)
  deriving DecidableEq, Repr

structure DocEntry where
  range : Range
  tag : DocTag
  deriving DecidableEq, Repr

structure DocComment where
  entries : List DocEntry
  deriving DecidableEq, Repr

namespace DocComment

def vars (d : DocComment) : List (String × Option String × Range) :=
  d.entries.filterMap fun e =>
    match e.tag with
    | .var type name _ => some (type, name, e.range)
    | _ => none

def param? (d : DocComment) (name : String) : Option (String × Range) :=
  d.entries.findSome? fun e =>
    match e.tag with
    | .param type (some n) _ _ _ => if n = name then some (type, e.range) else none
    | _ => none

/-- The type text of the first `@return` tag, and the range of its line. -/
def returns? (d : DocComment) : Option (String × Range) :=
  d.entries.findSome? fun e =>
    match e.tag with
    | .returns type _ => some (type, e.range)
    | _ => none

def templates (d : DocComment) : List String :=
  d.entries.filterMap fun e =>
    match e.tag with
    | .template name _ => some name
    | _ => none

def description (d : DocComment) : String :=
  "\n".intercalate (d.entries.filterMap fun e =>
    match e.tag with
    | .description text => some text
    | _ => none)

end DocComment

namespace DocLine

def lines : List Char → List (List Char)
  | [] => [[]]
  | c :: cs =>
    if c = '\n' then [] :: lines cs
    else
      match lines cs with
      | [] => [[c]]
      | l :: ls => (c :: l) :: ls

/-- The mark at the front of a line, by its length, and what follows it. -/
def dropMark : Bool → List Char → Nat × List Char
  | true, '/' :: '*' :: '*' :: rest => (3, rest)
  | _, '*' :: '/' :: rest => (0, '*' :: '/' :: rest)
  | _, '*' :: rest => (1, rest)
  | _, rest => (0, rest)

def dropEndMark (body : List Char) : List Char :=
  match (Text.dropEnd Text.isBlank body).reverse with
  | '/' :: '*' :: rest => rest.reverse
  | _ => body

/-- A line without the marks of a comment, and the column where what is left starts. -/
def undecorate (isFirst : Bool) (raw : List Char) : Nat × List Char :=
  let line := Text.dropEnd (· = '\r') raw
  let body := line.dropWhile Text.isBlank
  let (mark, rest) := dropMark isFirst body
  let rest := dropEndMark rest
  let content := rest.dropWhile Text.isBlank
  (line.length - body.length + mark + (rest.length - content.length), Text.dropEnd Text.isBlank content)

/-- Every line without its marks, with its range. Only the first line starts at the column of the
comment; `offset` is where the line starts. -/
def contents (base : Range) : Nat → Nat → List (List Char) → List (List Char × Range)
  | _, _, [] => []
  | index, offset, raw :: rest =>
    let (column, content) := undecorate (index = 0) raw
    let row := base.start.row + index
    let shift := if index = 0 then base.start.column else 0
    let start := offset + column
    let range : Range :=
      ⟨⟨row, column + shift⟩, ⟨row, column + shift + content.length⟩, start, start + content.length⟩
    (content, range) :: contents base (index + 1) (offset + raw.length + 1) rest

def isLetter (c : Char) : Bool := c.isAlpha

/-- A tag and what follows it. Unless a blank follows the tag, the line is mere text. -/
def tag? : List Char → Option (List Char × List Char)
  | '@' :: c :: cs =>
    if isLetter c then
      let inTag := fun c => Text.isWord c || c = '-'
      match cs.dropWhile inTag with
      | [] => some (c :: cs.takeWhile inTag, [])
      | d :: rest =>
        if Text.isBlank d then some (c :: cs.takeWhile inTag, Text.trimChars rest) else none
    else none
  | _ => none

/-- Tools whose names may stand before a tag. -/
def tools : List String := ["phpstan-", "psalm-", "phan-"]

def plainTag (tag : String) : String :=
  let w := Text.lower tag
  match tools.find? fun t => w.startsWith t with
  | some t => String.ofList (w.toList.drop t.length)
  | none => w

/-- The text of the type at the front, and what follows it. What is no type is taken up to a space. -/
def splitType (body : List Char) : List Char × List Char :=
  match NameContext.global.readPart? body with
  | some (_, rest) => (Text.trimChars (body.take (body.length - rest.length)), rest)
  | none => (body.takeWhile (· ≠ ' '), (body.dropWhile (· ≠ ' ')).drop 1)

def name? : List Char → Option (List Char × List Char)
  | c :: cs =>
    if isLetter c || c = '_' then some (c :: cs.takeWhile Text.isWord, cs.dropWhile Text.isWord)
    else none
  | [] => none

structure VariableMark where
  name : String
  byRef : Bool
  variadic : Bool
  rest : List Char

/-- A variable at the front, with its marks for references and for any number of arguments. -/
def mark? (cs : List Char) : Option VariableMark :=
  let cs := cs.dropWhile Text.isBlank
  let (byRef, cs) :=
    match cs with
    | '&' :: rest => (true, rest)
    | _ => (false, cs)
  let (variadic, cs) :=
    match cs with
    | '.' :: '.' :: '.' :: rest => (true, rest)
    | _ => (false, cs)
  match cs with
  | '$' :: rest => (name? rest).map fun (n, rest) => ⟨String.ofList n, byRef, variadic, rest⟩
  | _ => none

/-- The bound after `of` or `as`. -/
def bound? (cs : List Char) : Option String :=
  let word := fun (rest : List Char) =>
    let bound := rest.dropWhile Text.isBlank
    if bound.length < rest.length && !bound.isEmpty then
      some (String.ofList (bound.takeWhile fun c => !Text.isBlank c))
    else none
  let body := cs.dropWhile Text.isBlank
  if body.length < cs.length then
    match body with
    | 'o' :: 'f' :: rest | 'a' :: 's' :: rest => word rest
    | _ => none
  else none

def trimmed (cs : List Char) : String := String.ofList (Text.trimChars cs)

def meaning (tag : String) (body : List Char) : DocTag :=
  let name := plainTag tag
  let isVariable := name = "var" || name = "param"
  let isReturn := name = "return" || name = "returns"
  if isVariable || isReturn then
    if body.isEmpty || (isVariable && body.head? = some '$') then .other tag (String.ofList body)
    else
      let (type, rest) := splitType body
      let type := String.ofList type
      if isReturn then .returns type (trimmed rest)
      else
        let found := mark? rest
        let varName := found.map (·.name)
        let text := trimmed ((found.map (·.rest)).getD rest)
        if name = "var" then .var type varName text
        else
          .param type varName text ((found.map (·.variadic)).getD false)
            ((found.map (·.byRef)).getD false)
  else if name.startsWith "template" then
    match name? body with
    | some (n, rest) => .template (String.ofList n) (bound? rest)
    | none => .other tag (String.ofList body)
  else .other tag (String.ofList body)

def entry? (line : List Char × Range) : Option DocEntry :=
  match line with
  | ([], _) => none
  | (content, range) =>
    match tag? content with
    | some (tag, body) => some ⟨range, meaning (String.ofList tag) body⟩
    | none => some ⟨range, .description (String.ofList content)⟩

end DocLine

def DocComment.ofText (text : String) (range : Range) : DocComment :=
  ⟨(DocLine.contents range 0 range.startByte (DocLine.lines text.toList)).filterMap DocLine.entry?⟩

end PhpFlow
