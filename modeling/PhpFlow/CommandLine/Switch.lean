import PhpFlow.Text.Digit

/-!
# Switches and words

A list of arguments holds switches, their values, and words. A switch is written with two dashes and a
name, of which an unambiguous beginning will do, or with one dash and a letter; a value may be attached to
it, after an equals sign or right after the letter, and letters may share a dash. After two dashes alone
everything is a word. A word that other words and a switch divide from the first words is out of place.
All arguments are looked at before any of them has an effect: none may be ambiguous.
-/
namespace PhpFlow.CommandLine

inductive Inquiry where
  | help | version
  deriving DecidableEq, Repr

inductive Effect (σ : Type) where
  | flag (set : σ → σ)
  /-- The switch takes a value, which it may refuse. -/
  | value (set : String → σ → Option σ)
  | inquiry (i : Inquiry)

structure Switch (σ : Type) where
  names : List String
  effect : Effect σ

inductive WordCount where
  | one
  | many
  /-- One, and what follows it is left to the reader of that command. -/
  | command
  deriving DecidableEq, Repr

inductive Argument (σ : Type) where
  | word
  | switch (s : Switch σ) (name : String) (attached : Option String)
  | ambiguous
  | unknown

section

variable {σ : Type}

def named? (switches : List (Switch σ)) (name : String) : Option (Switch σ) :=
  switches.find? fun s => s.names.contains name

def splitEquals (arg : String) : String × Option String :=
  let name := arg.toList.takeWhile (· != '=')
  match arg.toList.drop name.length with
  | [] => (arg, none)
  | _ :: rest => (String.ofList name, some (String.ofList rest))

/-- The switches that an incomplete name may mean, each with the value attached. -/
def candidates (switches : List (Switch σ)) (arg : String) :
    List (Switch σ × String × Option String) :=
  switches.flatMap fun s => s.names.filterMap fun name =>
    if arg.startsWith "--" then
      let (start, attached) := splitEquals arg
      if name.startsWith start then some (s, name, attached) else none
    else if name.toList = arg.toList.take 2 then
      some (s, name, some (String.ofList (arg.toList.drop 2)))
    else if name.startsWith arg then some (s, name, none)
    else none

/-- A text without the end of a line at its end. -/
def dropLineEnd (cs : List Char) : List Char := if cs.getLast? = some '\n' then cs.dropLast else cs

/-- A number below zero, which is a word; a line may end after it. -/
def isNegative (arg : String) : Bool :=
  match dropLineEnd arg.toList with
  | '-' :: cs =>
    let whole := cs.takeWhile Text.isDigit
    match cs.drop whole.length with
    | [] => !whole.isEmpty
    | '.' :: ds => !ds.isEmpty && ds.all Text.isDigit
    | _ => false
  | _ => false

def classify (switches : List (Switch σ)) (arg : String) : Argument σ :=
  if !arg.startsWith "-" || arg = "-" then .word
  else
    match named? switches arg with
    | some s => .switch s arg none
    | none =>
      let (name, attached) := splitEquals arg
      match (if attached.isSome then named? switches name else none) with
      | some s => .switch s name attached
      | none =>
        match candidates switches arg with
        | [(s, name, attached)] => .switch s name attached
        | _ :: _ :: _ => .ambiguous
        | [] => if isNegative arg || arg.toList.contains ' ' then .word else .unknown

/-- The switches that share a dash, from one with the given letters attached on; the last of them may have
a value attached. -/
def cluster (switches : List (Switch σ)) (s : Switch σ) :
    List Char → Option (List (Effect σ × Option String))
  | [] => some [(s.effect, none)]
  | c :: cs =>
    match s.effect with
    | .value _ => some [(s.effect, some (String.ofList (c :: cs)))]
    | _ => do
      let next ← named? switches (String.ofList ['-', c])
      let more ← cluster switches next cs
      some ((s.effect, none) :: more)

/-- What a switch with a value attached to it does, unless it takes none. -/
def attachedEffects (switches : List (Switch σ)) (s : Switch σ) (name : String) (attached : Option String) :
    Option (List (Effect σ × Option String)) :=
  match s.effect, attached with
  | _, none => some [(s.effect, none)]
  | .value _, some v => some [(s.effect, some v)]
  | _, some v => if name.startsWith "--" || v = "" then none else cluster switches s v.toList

/-- The argument may mean more than one switch. -/
def isAmbiguous (switches : List (Switch σ)) (arg : String) : Bool :=
  match classify switches arg with
  | .ambiguous => true
  | _ => false

def isWord (switches : List (Switch σ)) (arg : String) : Bool :=
  match classify switches arg with
  | .word => true
  | _ => false

/-- One of the arguments that may be switches is ambiguous. -/
def anyAmbiguous (switches : List (Switch σ)) (args : List String) : Bool :=
  (args.takeWhile (· != "--")).any (isAmbiguous switches)

def wantsValue (effects : List (Effect σ × Option String)) : Bool :=
  match effects.getLast? with
  | some (.value _, none) => true
  | _ => false

/-- Gives the switch that waits for a value the one that follows. -/
def supply (value : String) (effects : List (Effect σ × Option String)) :
    List (Effect σ × Option String) :=
  effects.map fun (e, attached) => (e, attached.or (some value))

inductive Phase where
  | before
  | within
  /-- There must be no more words. -/
  | after
  deriving DecidableEq, Repr

structure Scan (σ : Type) where
  settings : σ
  words : List String := []
  phase : Phase := .before
  wordsOnly : Bool := false
  stray : Bool := false
  rest : List String := []

inductive Scanned (σ : Type) where
  | refused
  | inquiry (i : Inquiry)
  | done (s : Scan σ)

namespace Scan

def apply (s : Scan σ) : List (Effect σ × Option String) → Scanned σ
  | [] => .done s
  | (.flag set, _) :: es => apply { s with settings := set s.settings } es
  | (.inquiry i, _) :: _ => .inquiry i
  | (.value set, attached) :: es =>
    match attached.bind fun v => set v s.settings with
    | none => .refused
    | some settings => apply { s with settings } es

def word (count : WordCount) (s : Scan σ) (arg : String) : Scan σ :=
  match s.phase, count with
  | .before, _ => { s with words := [arg], phase := .within }
  | .within, .many => { s with words := s.words ++ [arg] }
  | _, _ => { s with phase := .after, stray := true }

/-- Two dashes alone. -/
def mark (s : Scan σ) : Scan σ :=
  { s with wordsOnly := true, stray := s.stray || s.phase = .after }

/-- A switch ends the words that stand before it. -/
def leaveWords (s : Scan σ) : Scan σ :=
  { s with phase := if s.phase = .before then .before else .after }

/-- What an argument does, apart from the value that a switch may wait for: it is a word, it is out of
place, or it stands for switches. -/
inductive Piece (σ : Type) where
  | word
  | mark
  | stray
  | switches (effects : List (Effect σ × Option String))
  | wrong

def piece (switches : List (Switch σ)) (s : Scan σ) (arg : String) : Piece σ :=
  if s.wordsOnly then .word
  else if arg = "--" then .mark
  else
    match classify switches arg with
    | .word => .word
    | .ambiguous => .wrong
    | .unknown => .stray
    | .switch switch name attached =>
      match attachedEffects switches switch name attached with
      | none => .wrong
      | some effects => .switches effects

/-- Reads arguments one by one. A command ends the reading, and two dashes must not stand before it. -/
def run (switches : List (Switch σ)) (count : WordCount) (s : Scan σ) : List String → Scanned σ
  | [] => if s.words.isEmpty then .refused else .done s
  | arg :: args =>
    match s.piece switches arg with
    | .wrong => .refused
    | .word =>
      if count = .command then .done { s.word count arg with rest := args }
      else run switches count (s.word count arg) args
    | .mark => if count = .command then .refused else run switches count s.mark args
    | .stray => run switches count { s.leaveWords with stray := true } args
    | .switches effects =>
      if wantsValue effects then
        match args with
        | [] => .refused
        | value :: args =>
          if value != "--" && isWord switches value then
            match s.leaveWords.apply (supply value effects) with
            | .done s => run switches count s args
            | answer => answer
          else .refused
      else
        match s.leaveWords.apply effects with
        | .done s => run switches count s args
        | answer => answer

end Scan

def scan (switches : List (Switch σ)) (count : WordCount) (settings : σ) (args : List String) :
    Scanned σ :=
  if anyAmbiguous switches args then .refused else Scan.run switches count { settings } args

end

end PhpFlow.CommandLine
