import PhpFlow.Toml.Moment

/-!
# Values in TOML

Strings, numbers, booleans, days and times, arrays and inline tables. Each reader gives what it reads with
the characters that follow.
-/
namespace PhpFlow.Toml

abbrev Table := List (String × Setting)

/-- What is missing makes a document malformed. -/
def need {α : Type} : Option α → Except Error α
  | some a => .ok a
  | none => .error .malformed

/-! ## Keys -/

def isKeyChar (c : Char) : Bool := c.isAlphanum || c = '-' || c = '_'

def keyPart : List Char → Option (String × List Char)
  | '"' :: cs => (basicText cs).map fun (t, rest) => (String.ofList t, rest)
  | '\'' :: cs => (literalText cs).map fun (t, rest) => (String.ofList t, rest)
  | cs =>
    let word := cs.takeWhile isKeyChar
    if word.isEmpty then none else some (String.ofList word, cs.drop word.length)

/-- The parts of a key, between which points stand, with at most `fuel` points. -/
def keyParts : Nat → List Char → Option (List String × List Char)
  | 0, _ => none
  | fuel + 1, cs => do
    let (p, rest) ← keyPart cs
    match skipBlanks rest with
    | '.' :: rest =>
      let (ps, rest) ← keyParts fuel (skipBlanks rest)
      some (p :: ps, rest)
    | rest => some ([p], rest)

def key (cs : List Char) : Option (List String × List Char) := keyParts (cs.length + 1) cs

def keyBeforeValue (cs : List Char) : Option (List String × List Char) := do
  let (path, rest) ← key cs
  match rest with
  | '=' :: rest => some (path, skipBlanks rest)
  | _ => none

/-! ## Tables -/

def replace (k : String) (v : Setting) (t : Table) : Table :=
  t.map fun e => if e.1 = k then (k, v) else e

def alter (f : Table → Option Table) : List String → Table → Option Table
  | [], t => f t
  | k :: ks, t =>
    match Setting.lookup? k t with
    | none => (alter f ks []).map fun u => t ++ [(k, .table u)]
    | some (.table u) => (alter f ks u).map fun u => replace k (.table u) t
    | some (.list items) =>
      match items.getLast? with
      | some (.table u) => (alter f ks u).map fun u => replace k (.list (items.dropLast ++ [.table u])) t
      | _ => none
    | some _ => none

def enter (k : String) (v : Setting) (t : Table) : Option Table :=
  if (Setting.lookup? k t).isSome then none else some (t ++ [(k, v)])

def put (path : List String) (v : Setting) (t : Table) : Option Table :=
  match path.getLast? with
  | none => none
  | some k => alter (enter k v) path.dropLast t

def isClosed : Setting → Bool
  | .table _ | .list _ => true
  | .scalar _ => false

/-- Some of the closed paths leads to the path or through it. -/
def reaches (closed : List (List String)) (path : List String) : Bool :=
  closed.any fun c => c.isPrefixOf path

/-! ## Values -/

/-- A value without parts; what looks like a day is one, and then like a time, and only then a number. -/
def scalar (cs : List Char) : Except Error (Scalar × List Char) :=
  match cs with
  | '"' :: _ | '\'' :: _ => (need (string cs)).map fun (s, rest) => (.text s, rest)
  | 't' :: 'r' :: 'u' :: 'e' :: rest => .ok (.bool true, rest)
  | 'f' :: 'a' :: 'l' :: 's' :: 'e' :: rest => .ok (.bool false, rest)
  | _ =>
    match moment? cs with
    | some (s, rest) => s.map (·, rest)
    | none =>
      match clock? cs with
      | some (c, rest) => .ok (.clock c, rest)
      | none =>
        match number? cs with
        | some (s, rest) => s.map (·, rest)
        | none => need (special? cs)

mutual

/-- Reads a value; fuel bounds how deep values nest and how many there are. -/
def valueWith : Nat → List Char → Except Error (Setting × List Char)
  | 0, _ => .error .malformed
  | fuel + 1, '[' :: cs => do
    let (items, rest) ← itemsWith fuel [] (← need (skipSpace cs))
    return (.list items, rest)
  | fuel + 1, '\x7b' :: cs => do
    match skipBlanks cs with
    | '\x7d' :: rest => return (.table [], rest)
    | cs =>
      let (t, rest) ← pairsWith fuel [] [] cs
      return (.table t, rest)
  | _ + 1, cs => (scalar cs).map fun (s, rest) => (.scalar s, rest)

def itemsWith : Nat → List Setting → List Char → Except Error (List Setting × List Char)
  | 0, _, _ => .error .malformed
  | _ + 1, done, ']' :: cs => .ok (done, cs)
  | fuel + 1, done, cs => do
    let (v, rest) ← valueWith fuel cs
    match ← need (skipSpace rest) with
    | ']' :: rest => return (done ++ [v], rest)
    | ',' :: rest => itemsWith fuel (done ++ [v]) (← need (skipSpace rest))
    | _ => throw .malformed

/-- The rest of an inline table, of which the entries before and the paths they close are given. -/
def pairsWith : Nat → Table → List (List String) → List Char → Except Error (Table × List Char)
  | 0, _, _, _ => .error .malformed
  | fuel + 1, done, closed, cs => do
    let (path, rest) ← need (keyBeforeValue cs)
    let (v, rest) ← valueWith fuel rest
    if reaches closed path then throw .malformed
    let done ← need (put path v done)
    match skipBlanks rest with
    | '\x7d' :: rest => return (done, rest)
    | ',' :: rest =>
      pairsWith fuel done (if isClosed v then path :: closed else closed) (skipBlanks rest)
    | _ => throw .malformed

end

def value (cs : List Char) : Except Error (Setting × List Char) := valueWith (2 * cs.length + 2) cs

end PhpFlow.Toml
