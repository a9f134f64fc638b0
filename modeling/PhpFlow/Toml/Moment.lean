import PhpFlow.Toml.Number

/-!
# Days and times in TOML

A day may be followed by a time of day, and that by an offset from universal time.
-/
namespace PhpFlow.Toml

def digits? (width : Nat) (cs : List Char) : Option (Nat × List Char) :=
  let ds := cs.take width
  if ds.length = width && ds.all isDigit then some (Numeral.natOf (decimals ds), cs.drop width) else none

def between? (low high : Nat) (cs : List Char) : Option (Nat × List Char) :=
  (digits? 2 cs).filter fun (n, _) => low ≤ n && n ≤ high

/-- The text after a mark, which has to be there. -/
def after? (mark : Char) : List Char → Option (List Char)
  | c :: cs => if c = mark then some cs else none
  | [] => none

def day? (cs : List Char) : Option (Day × List Char) := do
  let (year, cs) ← digits? 4 cs
  let (month, cs) ← between? 1 12 (← after? '-' cs)
  let (day, cs) ← between? 1 31 (← after? '-' cs)
  some (⟨year, month, day⟩, cs)

def microseconds (cs : List Char) : Nat × List Char :=
  match cs with
  | '.' :: rest =>
    let ds := rest.takeWhile isDigit
    if ds.isEmpty then (0, cs)
    else
      (Numeral.natOf (decimals ((ds ++ List.replicate 5 '0').take 6)), rest.drop ds.length)
  | _ => (0, cs)

def clock? (cs : List Char) : Option (Clock × List Char) := do
  let (hour, cs) ← between? 0 23 cs
  let (minute, cs) ← between? 0 59 (← after? ':' cs)
  let (second, cs) ← between? 0 59 (← after? ':' cs)
  let (microsecond, cs) := microseconds cs
  some (⟨hour, minute, second, microsecond⟩, cs)

/-- An offset in hours and minutes. -/
def hoursAndMinutes? (cs : List Char) : Option (Int × List Char) := do
  let (hours, cs) ← between? 0 23 cs
  let (minutes, cs) ← between? 0 59 (← after? ':' cs)
  some (((60 * hours + minutes : Nat) : Int), cs)

def offset (cs : List Char) : Option Int × List Char :=
  match cs with
  | 'Z' :: rest | 'z' :: rest => (some 0, rest)
  | '+' :: rest =>
    match hoursAndMinutes? rest with
    | some (n, rest) => (some n, rest)
    | none => (none, cs)
  | '-' :: rest =>
    match hoursAndMinutes? rest with
    | some (n, rest) => (some (-n), rest)
    | none => (none, cs)
  | _ => (none, cs)

/-- The time of day after a day and the letter or blank between them, if there is one. -/
def clockAfterDay? : List Char → Option (Clock × List Char)
  | 'T' :: cs | 't' :: cs | ' ' :: cs => clock? cs
  | _ => none

/-- A day or a moment at the front of a text; the day has to be one of the calendar. -/
def moment? (cs : List Char) : Option (Except Error Scalar × List Char) := do
  let (day, rest) ← day? cs
  let (scalar, rest) :=
    match clockAfterDay? rest with
    | none => (Scalar.day day, rest)
    | some (clock, rest) =>
      let (offset, rest) := offset rest
      (.moment ⟨day, clock, offset⟩, rest)
  some (if day.inCalendar then .ok scalar else .error .malformed, rest)

end PhpFlow.Toml
