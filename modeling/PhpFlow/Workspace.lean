import PhpFlow.Concrete.Basic
import PhpFlow.Obstacle
import PhpFlow.Text.Blank

/-!
# Files that a run can see

A workspace is a current directory and the files that can be reached from it. Directories exist where
files are in them.
-/
namespace PhpFlow

/-- A path as it is written: a root, which is empty for a relative path, and the names below it. -/
structure Path where
  root : String
  names : List String
  deriving DecidableEq, Repr

namespace Path

/-- Two slashes in front are a root of their own, more than two are one. -/
def rootOf : List Char → String
  | '/' :: '/' :: '/' :: _ => "/"
  | '/' :: '/' :: _ => "//"
  | '/' :: _ => "/"
  | _ => ""

def namesOf (cs : List Char) : List String :=
  ((Text.pieces (· = '/') [] cs).map String.ofList).filter (· != ".")

def ofText (s : String) : Path := ⟨rootOf s.toList, namesOf s.toList⟩

def toText (p : Path) : String :=
  if p.root = "" && p.names.isEmpty then "." else p.root ++ "/".intercalate p.names

def absolute (names : List String) : Path := ⟨"/", names⟩

def hasNull (name : String) : Bool := name.toList.contains '\x00'

/-- Null characters end a path for the system, so that there must be none. -/
def check (p : Path) : Except Obstacle Unit :=
  if p.names.any hasNull then .error .nullInPath else .ok ()

/-- A path of which the first name is that of a user, after a tilde, starts at the user's home. -/
def expand (homes : List (String × Path)) (p : Path) : Except Obstacle Path :=
  match p.root, p.names with
  | "", name :: rest =>
    match name.toList with
    | '~' :: user =>
      match homes.lookup (String.ofList user) with
      | some home => .ok ⟨home.root, home.names ++ rest⟩
      | none => .error (if hasNull name then .nullInPath else .noHome)
    | _ => .ok p
  | _, _ => .ok p

/-- The longest name in bytes, and the longest path. -/
def nameLimit : Nat := 255

def textLimit : Nat := 4095

def isTooLong (p : Path) : Bool := textLimit < p.toText.utf8ByteSize

end Path

/-- The text of a file and, for code, the tree that a parser gave for it. -/
structure SourceFile where
  names : List String
  text : String
  tree : Option Concrete

structure Workspace where
  directory : List String
  files : List SourceFile
  input : Option SourceFile
  /-- Directories that are known to exist, whether files are in them or not. -/
  directories : List (List String) := []
  /-- The homes of users; that of the current user is listed without a name. -/
  homes : List (String × Path) := []

inductive ReadError where
  | absent | directory | notDirectory | tooLong
  deriving DecidableEq, Repr

def ReadError.message (path : Path) : ReadError → String
  | absent => "[Errno 2] No such file or directory: " ++ Text.quote path.toText
  | directory => "[Errno 21] Is a directory: " ++ Text.quote path.toText
  | notDirectory => "[Errno 20] Not a directory: " ++ Text.quote path.toText
  | tooLong => (Obstacle.pathTooLong path.toText).message

namespace Workspace

def isDirectory (w : Workspace) (names : List String) : Bool :=
  names.isPrefixOf w.directory || w.files.any (fun f => names.isPrefixOf f.names) ||
    w.directories.any (fun d => names.isPrefixOf d)

def fileAt (w : Workspace) (names : List String) : Except ReadError SourceFile :=
  match w.files.find? fun f => f.names = names with
  | some f => .ok f
  | none => .error (if w.isDirectory names then .directory else .absent)

def walk (w : Workspace) (here : List String) : List String → Except ReadError SourceFile
  | [] => w.fileAt here
  | name :: rest =>
    match w.fileAt here with
    | .error .directory =>
      if Path.nameLimit < name.utf8ByteSize then .error .tooLong
      else walk w (if name = ".." then here.dropLast else here ++ [name]) rest
    | .error e => .error e
    | .ok _ => .error .notDirectory

def base (w : Workspace) (p : Path) : List String := if p.root = "" then w.directory else []

def read (w : Workspace) (p : Path) : Except ReadError SourceFile :=
  if p.isTooLong then .error .tooLong else w.walk (w.base p) p.names

/-- The names from the root down to what a path stands for, whether it exists or not. -/
def resolve (w : Workspace) (p : Path) : List String :=
  p.names.foldl (fun here name => if name = ".." then here.dropLast else here ++ [name]) (w.base p)

/-- Whether there is a file with the given names; a path that is too long cannot be asked about. -/
def isFile (w : Workspace) (names : List String) : Except Obstacle Bool :=
  match w.read (.absolute names) with
  | .ok _ => .ok true
  | .error .tooLong => .error (.pathTooLong (Path.absolute names).toText)
  | .error _ => .ok false

/-- The directories above a name, the nearest first, for names from the last one to the root. -/
def above : List String → List (List String)
  | [] => []
  | _ :: rest => rest.reverse :: above rest

def firstFile (w : Workspace) : List (List String) → Except Obstacle (Option (List String))
  | [] => .ok none
  | names :: rest => do if ← w.isFile names then return some names else firstFile w rest

/-- The file of a name that is nearest to a path: in the path itself, unless it is a file, or above it. -/
def nearest (w : Workspace) (name : String) (p : Path) : Except Obstacle (Option (List String)) := do
  p.check
  let names := w.resolve p
  let upwards := above names.reverse
  let directories := if ← w.isFile names then upwards else names :: upwards
  w.firstFile (directories.map (· ++ [name]))

end Workspace

end PhpFlow
