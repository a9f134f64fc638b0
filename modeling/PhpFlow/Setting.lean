import PhpFlow.Setting.Scalar

/-!
# Settings

Values as a configuration file gives them, and tables of them.
-/
namespace PhpFlow

inductive Setting where
  | scalar (s : Scalar)
  | list (items : List Setting)
  | table (entries : List (String × Setting))
  deriving Inhabited

namespace Setting

def kind : Setting → String
  | scalar s => s.kind
  | list _ => "list"
  | table _ => "dict"

/-- The items of a list as a set, in which equal ones count once. -/
def items (settings : List Setting) : Except Obstacle (List Scalar) := do
  let scalars ← settings.mapM fun s =>
    match s with
    | scalar s => Except.ok s
    | s => .error (.noItem s.kind)
  return scalars.eraseDups

def lookup? (key : String) : List (String × Setting) → Option Setting
  | [] => none
  | (k, v) :: rest => if k = key then some v else lookup? key rest

end Setting

end PhpFlow
