import PhpFlow.Flow.Statement
import PhpFlow.Proofs.Outlines

/-!
# The variables that code uses

Which variables code reads and which it writes can be told from the code alone. Every place counts by itself,
and only the code of one function counts. What code returns is told the same way, in the order in which the
analysis goes through the statements.
-/
namespace PhpFlow

/-- The variables that code reads and those that it writes, one entry for each place. -/
structure Usage where
  reads : List String
  writes : List String
  deriving DecidableEq, Repr

namespace Usage

def none : Usage := ⟨[], []⟩

def reading (names : List String) : Usage := ⟨names, []⟩

def writing (names : List String) : Usage := ⟨[], names⟩

instance : Append Usage := ⟨fun u v => ⟨u.reads ++ v.reads, u.writes ++ v.writes⟩⟩

@[simp] theorem reads_append (u v : Usage) : (u ++ v).reads = u.reads ++ v.reads := rfl

@[simp] theorem writes_append (u v : Usage) : (u ++ v).writes = u.writes ++ v.writes := rfl

def flatten : List Usage → Usage
  | [] => none
  | u :: us => u ++ flatten us

end Usage

section Expressions

mutual

/-- The variables whose value an expression uses. -/
def Expr.readings : Expr → Role → List String
  | .var _ n, .value => if n = "this" || superglobals.contains n then [] else [n]
  | .var _ _, .target => []
  | .paren _ a, role => a.readings role
  | .subscript _ b i, role => b.readings role ++ optionReadings i
  | .array _ es, role => elementReadings es role
  -- A reference to a variable is no use of its value.
  | .assign _ a b byRef, _ =>
    a.readings .target ++ if byRef && b.variableName?.isSome then [] else b.readings .value
  | .augment _ a _ b, _ | .binary _ a _ b, _ => a.readings .value ++ b.readings .value
  | .unary _ _ a, _ | .update _ _ a _, _ | .cast _ _ a, _ => a.readings .value
  | .ternary _ c b a, _ => c.readings .value ++ (optionReadings b ++ a.readings .value)
  | .call _ f as, _ | .create _ f as, _ =>
    (if f.name?.isNone then f.readings .value else []) ++ allReadings as
  | .sequence _ es, _ => allReadings es
  | .select _ e _, _ => e.readings .value
  | .integer _ _, _ | .float _ _, _ | .string _ _, _ | .boolean _ _, _ | .null _, _ | .name _ _, _
  | .closure _ _ _, _ | .unknown _ _ _, _ | .error _ _, _ => []

def optionReadings : Option Expr → List String
  | none => []
  | some e => e.readings .value

def allReadings : List Expr → List String
  | [] => []
  | e :: es => e.readings .value ++ allReadings es

def elementReadings : List Element → Role → List String
  | [], _ => []
  | ⟨_, v, k, _, byRef⟩ :: es, role =>
    optionReadings k ++
      ((match role with
        | .value => if byRef && v.variableName?.isSome then [] else v.readings .value
        | .target => v.readings .target) ++ elementReadings es role)

end

mutual

/-- The variables that an assignment to this target writes. -/
def Expr.targets : Expr → List String
  | .paren _ a => a.targets
  | .var _ n => if n = "this" then [] else [n]
  | .subscript _ b _ => (b.root?.map (·.name)).toList
  | .array _ es => elementTargets es
  | _ => []

def elementTargets : List Element → List String
  | [] => []
  | ⟨_, v, _, _, _⟩ :: es => v.targets ++ elementTargets es

end

mutual

/-- The variables that evaluating an expression writes. -/
def Expr.writings : Expr → Role → List String
  | .assign _ a b _, _ | .augment _ a _ b, _ =>
    b.writings .value ++ (a.writings .target ++ a.targets)
  | .update _ _ a _, _ => a.writings .target ++ a.targets
  | .binary _ a _ b, _ => a.writings .value ++ b.writings .value
  | .ternary _ c b a, _ => c.writings .value ++ (optionWritings b ++ a.writings .value)
  | .unary _ _ a, _ | .cast _ _ a, _ => a.writings .value
  | .paren _ a, role => a.writings role
  | .subscript _ b i, role => b.writings role ++ optionWritings i
  | .array _ es, .value => elementWritings es
  | .array _ es, .target => targetWritings es
  | .call _ f as, _ | .create _ f as, _ => f.writings .value ++ allWritings as
  | .sequence _ es, _ => allWritings es
  | .select _ e _, _ => e.writings .value
  | .var _ _, _ | .integer _ _, _ | .float _ _, _ | .string _ _, _ | .boolean _ _, _ | .null _, _
  | .name _ _, _ | .closure _ _ _, _ | .unknown _ _ _, _ | .error _ _, _ => []

def optionWritings : Option Expr → List String
  | none => []
  | some e => e.writings .value

def allWritings : List Expr → List String
  | [] => []
  | e :: es => e.writings .value ++ allWritings es

def elementWritings : List Element → List String
  | [] => []
  | ⟨_, v, k, _, _⟩ :: es => v.writings .value ++ (optionWritings k ++ elementWritings es)

def targetWritings : List Element → List String
  | [] => []
  | ⟨_, v, _, _, _⟩ :: es => v.writings .target ++ targetWritings es

end

end Expressions

section Grades

/-- A grade tells something about code that is put together from its parts: which variables the code uses, say,
or what it returns. -/
structure Grade (G : Type) where
  one : G
  mul : G → G → G
  sum : List G → G
  reading : List String → G := fun _ => one
  writing : List String → G := fun _ => one
  returning : Option Expr → G := fun _ => one
  comment : String → G := fun _ => one
  global : List String → G := fun _ => one
  /-- What the code of a function counts for around it. -/
  nested : G → G := fun _ => one

namespace Grade

variable {G : Type} (g : Grade G)

def all {α : Type} (f : α → G) (xs : List α) : G := xs.foldr (fun x y => g.mul (f x) y) g.one

def evaluated (e : Expr) : G := g.mul (g.reading (e.readings .value)) (g.writing (e.writings .value))

mutual

def stmt : Stmt → G
  | .comment _ t => g.comment t
  | .program _ ss | .block _ ss => block ss
  | .expression _ e => g.evaluated e
  | .echo _ es => g.all g.evaluated es
  | .return_ _ e => g.mul (g.all g.evaluated e.toList) (g.returning e)
  | .ifElse _ c b eis e => g.mul (g.evaluated c) (g.mul (stmt b) (elseIfs eis (else_ e)))
  | .while_ _ c b => g.mul (g.evaluated c) (stmt b)
  | .doWhile _ b c => g.mul (stmt b) (g.evaluated c)
  | .for_ _ is cs ns b =>
    g.mul (g.all g.evaluated is) (g.mul (g.all g.evaluated cs) (g.mul (block b) (g.all g.evaluated ns)))
  -- Key and value of an element are written in every round.
  | .foreach _ i v b k _ =>
    g.mul (g.evaluated i) (g.mul (g.writing ((k.map Expr.targets).getD [] ++ v.targets)) (stmt b))
  | .switch _ e cs => g.mul (g.evaluated e) (g.sum (cases cs))
  | .try_ _ b cs f => g.mul (g.sum (stmt b :: catches cs)) (body f)
  | .function f => g.nested (function f)
  | .method ⟨f, _⟩ => g.nested (function f)
  | .class_ _ _ _ _ ms _ => g.nested (methods ms)
  | .namespace_ _ _ b => body b
  | .const _ cs => g.all (fun c => g.evaluated c.value) cs
  | .global _ vs => g.global (vs.map (·.name))
  -- An expression that is no statement is analysed, but nothing in it is marked as read.
  | .bare e => g.writing (e.writings .value)
  | .clause c => clause c
  | .break_ _ | .continue_ _ | .empty _ | .use _ _ | .unknown _ _ _ => g.one

def block : List Stmt → G
  | [] => g.one
  | s :: ss => g.mul (stmt s) (block ss)

def elseIfs : List ElseIf → G → G
  | [], last => last
  | ⟨_, c, b⟩ :: cs, last => g.mul (g.evaluated c) (g.mul (stmt b) (elseIfs cs last))

def else_ : Option Else → G
  | none => g.one
  | some ⟨_, b⟩ => stmt b

def cases : List Case → List G
  | [] => []
  | ⟨_, v, ss⟩ :: cs => g.mul (g.all g.evaluated v.toList) (block ss) :: cases cs

def catches : List Catch → List G
  | [] => []
  | ⟨_, _, b, v⟩ :: cs =>
    g.mul (g.writing ((v.map fun v => (Expr.var v.range v.name).targets).getD [])) (stmt b) :: catches cs

def body : Option Stmt → G
  | none => g.one
  | some s => stmt s

def function : Function → G
  | ⟨_, _, _, b, _, _⟩ => body b

def methods : List Method → G
  | [] => g.one
  | ⟨f, _⟩ :: ms => g.mul (function f) (methods ms)

def clause : Clause → G
  | .element e => g.writing (elementWritings [e])
  | .parameter p => g.writing (optionWritings p.default)
  | .elseIf ⟨_, c, b⟩ => g.mul (g.writing (c.writings .value)) (stmt b)
  | .else_ ⟨_, b⟩ | .catch_ ⟨_, _, b, _⟩ => stmt b
  | .case ⟨_, v, ss⟩ => g.mul (g.writing (optionWritings v)) (block ss)
  | .use _ => g.one
  | .constant c => g.writing (c.value.writings .value)

end

structure Lawful : Prop where
  one_mul : ∀ x, g.mul g.one x = x
  mul_one : ∀ x, g.mul x g.one = x
  reading_nil : g.reading [] = g.one
  reading_append : ∀ xs ys, g.reading (xs ++ ys) = g.mul (g.reading xs) (g.reading ys)
  writing_nil : g.writing [] = g.one
  writing_append : ∀ xs ys, g.writing (xs ++ ys) = g.mul (g.writing xs) (g.writing ys)

def nothing : Grade Unit where
  one := ()
  mul _ _ := ()
  sum _ := ()

theorem lawful_nothing : nothing.Lawful := by
  constructor <;> intros <;> rfl

end Grade

def usageGrade : Grade Usage where
  one := .none
  mul := (· ++ ·)
  sum := .flatten
  reading := .reading
  writing := .writing

def Function.usage (f : Function) : Usage := usageGrade.function f

def returnsGrade : Grade (List (Option Expr)) where
  one := []
  mul := (· ++ ·)
  sum := List.flatten
  returning e := [e]

/-- The return statements of a function where the analysis follows it, each with what it returns; those of the
functions defined in it are not among them. -/
def Function.returns (f : Function) : List (Option Expr) := returnsGrade.function f

end Grades

section Plain

def Outline.Plain (o : Outline) : Prop := ∀ n ∈ o.walk, n.kind ≠ .error ∧ n.kind ≠ .global

instance (o : Outline) : Decidable o.Plain := inferInstanceAs (Decidable (∀ n ∈ o.walk, _))

/-- The kinds that plain code is made of. -/
def NodeKind.Plain (k : NodeKind) : Prop := k ≠ .error ∧ k ≠ .global

instance (k : NodeKind) : Decidable k.Plain := inferInstanceAs (Decidable (_ ∧ _))

end Plain

end PhpFlow
