import Mathlib.Computability.Language
import PhpFlow.Flow.Expression

/-!
# The paths through structured code

An execution of structured code is seen as the list of its writes. Conditions may go either way and loops may
run any number of times, so the executions form a regular language over writes: sequences multiply,
alternatives add, and loops are stars.
-/
namespace PhpFlow

open List Option

open scoped Computability

/-- A write that is made on a path: to a variable, by the place in the code with this number, which stands
at this range. -/
structure WriteEvent where
  name : String
  site : Nat
  range : Option Range
  deriving DecidableEq, Repr

def lastWrite (x : String) (p : List WriteEvent) : Option WriteEvent := p.reverse.find? (·.name = x)

/-- What may be the last write to `x` after the paths `P`, where before them it is one of `D`. -/
def reachThrough (P : Language WriteEvent) (x : String) (D : Set (Option WriteEvent)) :
    Set (Option WriteEvent) :=
  {d | ∃ p ∈ P, ∃ d₀ ∈ D, d = (lastWrite x p).or d₀}

section Reaching

variable (P Q : Language WriteEvent) (x : String) (D : Set (Option WriteEvent))

theorem lastWrite_append (p q : List WriteEvent) :
    lastWrite x (p ++ q) = (lastWrite x q).or (lastWrite x p) := by
  simp [lastWrite, find?_append]

theorem reachThrough_one : reachThrough 1 x D = D := by
  ext d
  simp [reachThrough, lastWrite, Language.mem_one]

theorem reachThrough_mul : reachThrough (P * Q) x D = reachThrough Q x (reachThrough P x D) := by
  ext d
  constructor
  · rintro ⟨_, hpq, d₀, hd₀, rfl⟩
    obtain ⟨p, hp, q, hq, rfl⟩ := Language.mem_mul.mp hpq
    exact ⟨q, hq, _, ⟨p, hp, d₀, hd₀, rfl⟩, by rw [lastWrite_append, Option.or_assoc]⟩
  · rintro ⟨q, hq, _, ⟨p, hp, d₀, hd₀, rfl⟩, rfl⟩
    refine ⟨p ++ q, Language.append_mem_mul hp hq, d₀, hd₀, ?_⟩
    rw [lastWrite_append, Option.or_assoc]

theorem reachThrough_add :
    reachThrough (P + Q) x D = reachThrough P x D ∪ reachThrough Q x D := by
  ext d
  constructor
  · rintro ⟨p, hp, hd⟩
    exact ((Language.mem_add P Q p).mp hp).imp (fun h => ⟨p, h, hd⟩) fun h => ⟨p, h, hd⟩
  · rintro (⟨p, hp, hd⟩ | ⟨p, hp, hd⟩)
    · exact ⟨p, (Language.mem_add P Q p).mpr (.inl hp), hd⟩
    · exact ⟨p, (Language.mem_add P Q p).mpr (.inr hp), hd⟩

/-- Of several rounds one writes last, or none writes. -/
theorem lastWrite_flatten (rounds : List (List WriteEvent)) :
    lastWrite x rounds.flatten = none ∨ ∃ p ∈ rounds, lastWrite x rounds.flatten = lastWrite x p := by
  induction rounds with
  | nil => exact .inl rfl
  | cons p ps ih =>
    rw [flatten_cons, lastWrite_append]
    rcases ih with hnone | ⟨q, hq, hlast⟩
    · right
      exact ⟨p, mem_cons_self, by rw [hnone, none_or]⟩
    · cases hw : lastWrite x q with
      | none =>
        right
        exact ⟨p, mem_cons_self, by rw [hlast, hw, none_or]⟩
      | some e =>
        right
        exact ⟨q, mem_cons_of_mem p hq, by rw [hlast, hw, some_or]⟩

/-- More rounds of a loop do nothing that one round could not have done. -/
theorem reachThrough_kstar : reachThrough P∗ x D = D ∪ reachThrough P x D := by
  ext d
  constructor
  · rintro ⟨_, ⟨rounds, rfl, hrounds⟩, d₀, hd₀, rfl⟩
    rcases lastWrite_flatten x rounds with hnone | ⟨p, hp, hlast⟩
    · left
      rw [hnone, none_or]
      exact hd₀
    · right
      exact ⟨p, hrounds p hp, d₀, hd₀, by rw [hlast]⟩
  · rintro (hd | ⟨p, hp, d₀, hd₀, rfl⟩)
    · exact ⟨[], Language.nil_mem_kstar P, d, hd, rfl⟩
    · exact ⟨p, ⟨[p], by simp, by simpa using hp⟩, d₀, hd₀, rfl⟩

theorem reachThrough_twice : reachThrough P x (reachThrough P x D) ⊆ reachThrough P x D := by
  rintro _ ⟨q, hq, _, ⟨p, hp, d₀, hd₀, rfl⟩, rfl⟩
  cases hw : lastWrite x q with
  | none => exact ⟨p, hp, d₀, hd₀, by rw [none_or]⟩
  | some e => exact ⟨q, hq, d₀, hd₀, by rw [hw, some_or, some_or]⟩

theorem reachThrough_write (e : WriteEvent) (hD : D.Nonempty) :
    reachThrough {[e]} x D = if e.name = x then {some e} else D := by
  ext d
  by_cases he : e.name = x
  · obtain ⟨d₀, hd₀⟩ := hD
    rw [if_pos he]
    constructor
    · rintro ⟨p, hp, d₁, -, rfl⟩
      obtain rfl : p = [e] := hp
      simp [lastWrite, he]
    · rintro rfl
      exact ⟨[e], rfl, d₀, hd₀, by simp [lastWrite, he]⟩
  · rw [if_neg he]
    constructor
    · rintro ⟨p, hp, d₁, hd₁, rfl⟩
      obtain rfl : p = [e] := hp
      simpa [lastWrite, he] using hd₁
    · intro hd
      exact ⟨[e], rfl, d, hd, by simp [lastWrite, he]⟩

end Reaching

/-- The paths through a piece of code with a number of places that write. How these are numbered depends
on where the count starts. -/
structure Route where
  sites : Nat
  paths : Nat → Language WriteEvent
  /-- Every write is made by one of the places. -/
  inside : ∀ n, ∀ p ∈ paths n, ∀ e ∈ p, n ≤ e.site ∧ e.site < n + sites
  /-- There is a way through. -/
  passable : ∀ n, ∃ p, p ∈ paths n

namespace Route

def skip : Route where
  sites := 0
  paths _ := 1
  inside := by
    intro n p hp e he
    rw [(Language.mem_one p).mp hp] at he
    cases he
  passable _ := ⟨[], Language.nil_mem_one⟩

def write (x : String) (r : Range) : Route where
  sites := 1
  paths n := {[⟨x, n, some r⟩]}
  inside := by
    intro n p hp e he
    obtain rfl : p = [⟨x, n, some r⟩] := hp
    obtain rfl := mem_singleton.mp he
    exact ⟨Nat.le_refl n, Nat.lt_succ_self n⟩
  passable n := ⟨_, rfl⟩

def seq (R S : Route) : Route where
  sites := R.sites + S.sites
  paths n := R.paths n * S.paths (n + R.sites)
  inside := by
    intro n _ hpq e he
    obtain ⟨p, hp, q, hq, rfl⟩ := Language.mem_mul.mp hpq
    rcases mem_append.mp he with he | he
    · have := R.inside n p hp e he
      omega
    · have := S.inside _ q hq e he
      omega
  passable n := by
    obtain ⟨p, hp⟩ := R.passable n
    obtain ⟨q, hq⟩ := S.passable (n + R.sites)
    exact ⟨p ++ q, Language.append_mem_mul hp hq⟩

def alt (R S : Route) : Route where
  sites := R.sites + S.sites
  paths n := R.paths n + S.paths (n + R.sites)
  inside := by
    intro n p hp e he
    rcases (Language.mem_add _ _ p).mp hp with hp | hp
    · have := R.inside n p hp e he
      omega
    · have := S.inside _ p hp e he
      omega
  passable n := by
    obtain ⟨p, hp⟩ := R.passable n
    exact ⟨p, (Language.mem_add _ _ p).mpr (.inl hp)⟩

def anyTimes (R : Route) : Route where
  sites := R.sites
  paths n := (R.paths n)∗
  inside := by
    rintro n _ ⟨rounds, rfl, hrounds⟩ e he
    obtain ⟨p, hp, he⟩ := mem_flatten.mp he
    exact R.inside n p (hrounds p hp) e he
  passable n := ⟨[], Language.nil_mem_kstar _⟩

def atLeastOnce (R : Route) : Route where
  sites := R.sites
  paths n := R.paths n * (R.paths n)∗
  inside := by
    intro n _ hpq e he
    obtain ⟨p, hp, q, ⟨rounds, rfl, hrounds⟩, rfl⟩ := Language.mem_mul.mp hpq
    rcases mem_append.mp he with he | he
    · exact R.inside n p hp e he
    · obtain ⟨r, hr, he⟩ := mem_flatten.mp he
      exact R.inside n r (hrounds r hr) e he
  passable n := by
    obtain ⟨p, hp⟩ := R.passable n
    exact ⟨p ++ [], Language.append_mem_mul hp (Language.nil_mem_kstar _)⟩

def among : List Route → Route
  | [] => skip
  | [R] => R
  | R :: S :: Rs => R.alt (among (S :: Rs))

theorem paths_eq_one {R : Route} (h : R.sites = 0) (n : Nat) : R.paths n = 1 := by
  have hnil : ∀ p ∈ R.paths n, p = [] := by
    intro p hp
    cases p with
    | nil => rfl
    | cons e p =>
      have := R.inside n _ hp e mem_cons_self
      omega
  ext p
  constructor
  · exact hnil p
  · rintro rfl
    obtain ⟨q, hq⟩ := R.passable n
    exact hnil q hq ▸ hq

end Route

/-- A variable as the target of an assignment; the object that a method runs on cannot be assigned. -/
def Expr.isPlainTarget : Expr → Bool
  | .var _ n => n ≠ "this"
  | .paren _ a => a.isPlainTarget
  | _ => false

def Expr.targetRoute : Expr → Route
  | .var r n => .write n r
  | .paren _ a => a.targetRoute
  | _ => .skip

/-- The operator may leave its right operand out. -/
def isShortCircuitToken (token : String) : Bool :=
  ((Operator.ofToken? token).filter Operator.isShortCircuit).isSome

mutual

def Expr.route : Expr → Route
  | .assign _ a b _ => b.route.seq a.targetRoute
  | .augment _ a _ b => b.route.seq a.targetRoute
  | .update _ _ a _ => a.targetRoute
  | .binary _ a op b =>
    a.route.seq (if isShortCircuitToken op then b.route.alt .skip else b.route)
  | .ternary _ c b a => c.route.seq ((optionRoute b).alt a.route)
  | .unary _ _ a | .paren _ a | .cast _ _ a => a.route
  | .subscript _ b i => b.route.seq (optionRoute i)
  | .array _ es => elementsRoute es
  | .call _ f as | .create _ f as => f.route.seq (sequenceRoute as)
  | .sequence _ es => sequenceRoute es
  | .select _ e _ => e.route
  | .var _ _ | .integer _ _ | .float _ _ | .string _ _ | .boolean _ _ | .null _ | .name _ _
  | .closure _ _ _ | .unknown _ _ _ | .error _ _ => .skip

def optionRoute : Option Expr → Route
  | none => .skip
  | some e => e.route

def sequenceRoute : List Expr → Route
  | [] => .skip
  | e :: es => e.route.seq (sequenceRoute es)

def elementsRoute : List Element → Route
  | [] => .skip
  | ⟨_, v, k, _, _⟩ :: es => ((optionRoute k).seq v.route).seq (elementsRoute es)

end

mutual

/-- The expression assigns to plain variables only and by value, and has no syntax error in it. -/
def Expr.isStructured : Expr → Bool
  | .assign _ a b byRef => !byRef && a.isPlainTarget && b.isStructured
  | .augment _ a op b => !isShortCircuitToken op && a.isPlainTarget && b.isStructured
  | .update _ _ a _ => a.isPlainTarget
  | .binary _ a _ b => a.isStructured && b.isStructured
  | .ternary _ c b a => c.isStructured && optionIsStructured b && a.isStructured
  | .unary _ _ a | .paren _ a | .cast _ _ a => a.isStructured
  | .subscript _ b i => b.isStructured && optionIsStructured i
  | .array _ es => elementsAreStructured es
  | .call _ f as | .create _ f as => f.isStructured && allAreStructured as
  | .sequence _ es => allAreStructured es
  | .select _ e arms => e.isStructured && armsWriteNothing arms
  | .var _ _ | .integer _ _ | .float _ _ | .string _ _ | .boolean _ _ | .null _ | .name _ _
  | .closure _ _ _ | .unknown _ _ _ => true
  | .error _ _ => false

def optionIsStructured : Option Expr → Bool
  | none => true
  | some e => e.isStructured

def allAreStructured : List Expr → Bool
  | [] => true
  | e :: es => e.isStructured && allAreStructured es

/-- Keys write nothing, so that it does not matter whether they come before or after the values. -/
def elementsAreStructured : List Element → Bool
  | [] => true
  | ⟨_, v, k, _, _⟩ :: es =>
    v.isStructured && optionIsStructured k && (optionRoute k).sites == 0 && elementsAreStructured es

/-- The arms of a selection are not followed, so they must not write. -/
def armsWriteNothing : List Stmt → Bool
  | [] => true
  | .bare e :: arms => e.isStructured && e.route.sites == 0 && armsWriteNothing arms
  | _ :: _ => false

end

mutual

/-- The paths through a statement. The cases of a switch are exclusive alternatives. -/
def Stmt.route : Stmt → Route
  | .expression _ e => e.route
  | .echo _ es => sequenceRoute es
  | .program _ ss | .block _ ss => blockRoute ss
  | .ifElse _ c b eis e => c.route.seq (b.route.alt (elseIfRoute eis (elseRoute e)))
  | .while_ _ c b => c.route.seq (b.route.seq c.route).anyTimes
  | .doWhile _ b c => (b.route.seq c.route).atLeastOnce
  | .for_ _ is cs ns b =>
    (sequenceRoute is).seq <| (sequenceRoute cs).seq
      (((blockRoute b).seq (sequenceRoute ns)).seq (sequenceRoute cs)).anyTimes
  | .foreach _ i v b k _ =>
    i.route.seq ((((k.map Expr.targetRoute).getD .skip).seq v.targetRoute).seq b.route).anyTimes
  | .switch _ e cs =>
    e.route.seq <| .among <| caseRoutes cs ++ if cs.any fun c => c.value.isNone then [] else [.skip]
  | _ => .skip

def blockRoute : List Stmt → Route
  | [] => .skip
  | s :: ss => s.route.seq (blockRoute ss)

def elseIfRoute : List ElseIf → Route → Route
  | [], last => last
  | ⟨_, c, b⟩ :: cs, last => c.route.seq (b.route.alt (elseIfRoute cs last))

def elseRoute : Option Else → Route
  | none => .skip
  | some ⟨_, b⟩ => b.route

def caseRoutes : List Case → List Route
  | [] => []
  | ⟨_, v, ss⟩ :: cs => (optionRoute v).seq (blockRoute ss) :: caseRoutes cs

end

/-- A condition of a loop or a value of a case: structured and without assignments. -/
def Expr.isTest (e : Expr) : Bool := e.isStructured && e.route.sites == 0

mutual

/-- The statement is built from expressions, blocks, choices and loops alone, and nothing jumps out of
them. -/
def Stmt.isStructured : Stmt → Bool
  | .comment _ _ | .empty _ => true
  | .expression _ e => e.isStructured
  | .echo _ es => allAreStructured es
  | .program _ ss | .block _ ss => blockIsStructured ss
  | .ifElse _ c b eis e =>
    c.isStructured && b.isStructured && elseIfsAreStructured eis && elseIsStructured e
  | .while_ _ c b => c.isTest && b.isStructured
  | .doWhile _ b c => b.isStructured && c.isStructured
  | .for_ _ is cs ns b =>
    allAreStructured is && cs.all Expr.isTest && allAreStructured ns && blockIsStructured b
  | .foreach _ i v b k byRef =>
    !byRef && i.isStructured && v.isPlainTarget && k.all Expr.isPlainTarget && b.isStructured
  | .switch _ e cs => e.isStructured && casesAreStructured cs
  | _ => false

def blockIsStructured : List Stmt → Bool
  | [] => true
  | s :: ss => s.isStructured && blockIsStructured ss

def elseIfsAreStructured : List ElseIf → Bool
  | [] => true
  | ⟨_, c, b⟩ :: cs => c.isStructured && b.isStructured && elseIfsAreStructured cs

def elseIsStructured : Option Else → Bool
  | none => true
  | some ⟨_, b⟩ => b.isStructured

def casesAreStructured : List Case → Bool
  | [] => true
  | ⟨_, v, ss⟩ :: cs => v.all Expr.isTest && blockIsStructured ss && casesAreStructured cs

end

end PhpFlow
