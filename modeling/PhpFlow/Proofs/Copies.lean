import Mathlib.Algebra.Ring.Int.Defs
import PhpFlow.Proofs.Firsts
import PhpFlow.Scope.Arena

/-!
# Merging the copies of a variable

Merging works name by name. What becomes of a variable depends on the variable itself, on the copies that
the arms have of it, in their order, and on whether some arm has none.
-/
namespace PhpFlow

open List

namespace Variable

variable {w : Write} {ws : List Write}

theorem distinct_eq (ws : List Write) : distinct ws = Firsts.keep Write.id ws := rfl

theorem knows_iff (ws : List Write) (w : Write) : knows ws w = true ↔ ∃ x ∈ ws, x.id = w.id := by
  simp [knows]

theorem mem_of_mem_distinct (h : w ∈ distinct ws) : w ∈ ws := Firsts.mem_of_mem_keep h

theorem exists_mem_distinct (h : w ∈ ws) : ∃ x ∈ distinct ws, x.id = w.id := Firsts.exists_mem_keep h

theorem distinct_eq_nil (h : distinct ws = []) : ws = [] := by
  cases ws with
  | nil => rfl
  | cons w ws =>
    obtain ⟨x, hx, -⟩ := exists_mem_distinct (mem_cons_self (a := w) (l := ws))
    simp [h] at hx

theorem mem_of_mem_missingFrom {history : List Write} (h : w ∈ missingFrom history ws) : w ∈ ws :=
  mem_of_mem_distinct (mem_filter.mp h).1

def addedBy (v : Variable) (copies : List Variable) : List Write :=
  missingFrom v.history
    (copies.flatMap (·.history.drop v.history.length) ++ distinct (copies.flatMap (·.live)))

/-- The variable after copies of it have been merged, where `absent` if some arm has no copy. -/
def mergeCopies (v : Variable) (copies : List Variable) (absent : Bool) : Variable :=
  { v with
    history := v.history ++ v.addedBy copies
    live := distinct (copies.flatMap (·.live))
    writes := v.writes + (v.addedBy copies).length
    isPartial := copies.any (·.isPartial) || (absent || copies.any (·.live.isEmpty))
    narrowed := if (v.addedBy copies).isEmpty then v.narrowed else none
    reads := v.reads + (copies.map fun c => c.reads - v.reads).sum
    references := v.references ++ copies.flatMap (·.references.drop v.references.length)
    reportedUnknown := v.reportedUnknown || copies.any (·.reportedUnknown)
    commentType := v.commentType <|> copies.findSome? (·.commentType) }

end Variable

namespace Scope

theorem firstOccurrences_eq (names : List String) : firstOccurrences names = Firsts.keep id names := by
  have hcontains (acc : List String) (n : String) : acc.contains n = Firsts.known id acc n := by
    rw [Bool.eq_iff_iff]
    simp [Firsts.known]
  simp only [firstOccurrences, Firsts.keep, hcontains]

variable (arms : List Scope)

def copies (x : String) : List Variable := arms.filterMap (·.var? x)

def anyLacks (x : String) : Bool := arms.any fun arm => (arm.var? x).isNone

/-- The variable that copies are merged into. One that is made for it is an argument, and has a declared
type, if the first copy is and has. -/
def mergeStart (target : Scope) (x : String) (copies : List Variable) : Variable :=
  (target.var? x).getD
    { name := x, isArgument := (copies.head?.map (·.isArgument)).getD false
      declaredType := copies.head?.bind (·.declaredType) }

theorem mem_copies {arms : List Scope} {x : String} {v : Variable} :
    v ∈ copies arms x ↔ ∃ arm ∈ arms, arm.var? x = some v := by simp [copies]

theorem foldl_reads (vs : List Variable) (base n : Int) :
    vs.foldl (fun n v => n + (v.reads - base)) n = n + (vs.map fun v => v.reads - base).sum := by
  induction vs generalizing n with
  | nil => simp
  | cons v vs ih =>
    rw [foldl_cons, ih, map_cons, sum_cons]
    omega

theorem flatten_lives (x : String) :
    ((arms.map (·.var? x)).map fun v => (v.map (·.live)).getD []).flatten = (copies arms x).flatMap (·.live) := by
  induction arms with
  | nil => rfl
  | cons arm arms ih => cases hv : arm.var? x <;> simpa [copies, hv] using ih

theorem any_isEmpty_lives (x : String) :
    ((arms.map (·.var? x)).map fun v => (v.map (·.live)).getD []).any List.isEmpty =
      (anyLacks arms x || (copies arms x).any (·.live.isEmpty)) := by
  induction arms with
  | nil => rfl
  | cons arm arms ih =>
    cases hv : arm.var? x with
    | none => simp [anyLacks, hv]
    | some v =>
      simp only [map_cons, hv, Option.map_some, Option.getD_some, any_cons, ih]
      simp [copies, anyLacks, hv, Bool.or_left_comm]

theorem mergeVar_eq (target : Scope) (arms : List Scope) (x : String) :
    target.mergeVar arms x =
      (target.mergeStart x (copies arms x)).mergeCopies (copies arms x) (anyLacks arms x) := by
  have hpresent : ((arms.map fun arm => arm.var? x).filterMap fun v => v) = copies arms x := by
    rw [filterMap_map]
    rfl
  unfold mergeVar
  simp only [Variable.join, hpresent, flatten_lives, any_isEmpty_lives, foldl_reads]
  cases hv : target.var? x with
  | some v => simp [mergeStart, hv, Variable.mergeCopies, Variable.addedBy]
  | none =>
    cases hc : copies arms x with
    | nil => simp [mergeStart, hv, Variable.mergeCopies, Variable.addedBy]
    | cons c cs => simp [mergeStart, hv, Variable.mergeCopies, Variable.addedBy]

end Scope

end PhpFlow
