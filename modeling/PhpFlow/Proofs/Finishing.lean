import PhpFlow.Proofs.Stopping

/-!
# Code without syntax errors is followed to its end

The analysis of a construct stops only at a syntax error. So if there is none in a piece of code, the answer
is always to go on.
-/
namespace PhpFlow

def errorFree : NodeTest where
  expr
    | .error _ _ => false
    | _ => true

namespace Step

variable {α β : Type} {m : Step α} {P : α → Prop}

/-- The answer of the first step is known to the second. -/
theorem Gives.chain {f : α → Step β} {Q : β → Prop} (hm : m.Gives P) (hf : ∀ a, P a → (f a).Gives Q) :
    (m >>= f).Gives Q := by
  intro s b u hb
  obtain ⟨a, t, ht, hft⟩ := exists_of_bind_eq_ok hb
  exact hf a (hm s a t ht) t b u hft

theorem Gives.ensuring (hm : m.Gives P) (last : Step Unit) : (Step.ensuring m last).Gives P := by
  intro s a u ha
  obtain ⟨t, hms, -⟩ := exists_of_ensuring_eq_ok ha
  exact hm s a t hms

def Finishes (m : Step Bool) : Prop := m.Gives (· = true)

namespace Finishes

variable {a b : Step Bool}
variable {arms : List (Step Bool)}

theorem continue_ : (Pure.pure true : Step Bool).Finishes := .pure rfl

theorem after {f : α → Step Bool} (hf : ∀ x, (f x).Finishes) : (m >>= f).Finishes := .bind hf

theorem andThen (ha : a.Finishes) (hb : b.Finishes) : (Step.andThen a b).Finishes := by
  refine Gives.chain (Q := (· = true)) ha ?_
  rintro _ rfl
  exact hb

theorem guarded (ha : a.Finishes) (r : Range) : (Step.guarded r true a).Finishes := Gives.guarded ha r rfl

theorem inScope (ha : a.Finishes) (h : Handle) : (Step.inScope h a).Finishes :=
  .after fun _ => Gives.ensuring (.bind fun _ => ha) _

theorem inLoop (ha : a.Finishes) : (Step.inLoop a).Finishes := .after fun _ => Gives.ensuring ha _

theorem passed {m : Step Unit} (ha : a.Finishes) : (do let ok ← a; m; return ok : Step Bool).Finishes := by
  refine Gives.chain (Q := (· = true)) ha ?_
  rintro _ rfl
  exact Gives.bind fun _ => continue_

theorem detour (makeBranch : Step Handle) (ha : a.Finishes) (side : BranchSide) :
    (Step.detour makeBranch side a).Finishes :=
  .after fun _ => .after fun taken => .after fun _ => (ha.inScope taken).passed

theorem choice (c : Expr) (ha : a.Finishes) (hb : b.Finishes) : (Step.choice c a b).Finishes :=
  .after fun _ => .after fun h => .after fun k => ((ha.inScope h).andThen (hb.inScope k)).passed

theorem analyzeArms (harms : ∀ m ∈ arms, m.Finishes) (parent : Handle) :
    (analyzeArms parent arms).Gives (·.1 = true) := by
  induction arms with
  | nil => exact .pure rfl
  | cons m arms ih =>
    have hm := harms m List.mem_cons_self
    have hfirst : (inArm parent m).Gives (·.1 = true) :=
      .bind fun h => .chain (hm.inScope h) fun ok hok => .pure hok
    have hrest := ih fun m hm => harms m (List.mem_cons_of_mem _ hm)
    refine Gives.chain (Q := fun r : Bool × List Handle => r.1 = true) hfirst ?_
    rintro ⟨_, h⟩ rfl
    refine Gives.chain (Q := fun r : Bool × List Handle => r.1 = true) hrest ?_
    rintro ⟨_, hs⟩ rfl
    exact .pure rfl

theorem switchArms (harms : ∀ m ∈ arms, m.Finishes) (hasDefault : Bool) :
    (switchArms hasDefault arms).Finishes := by
  apply after
  intro parent
  refine Gives.chain (Q := (· = true)) (analyzeArms harms parent) ?_
  rintro ⟨_, hs⟩ rfl
  dsimp only
  split
  · exact Gives.bind fun _ => Gives.bind fun _ => continue_
  · exact Gives.bind fun _ => Gives.bind fun _ => Gives.bind fun _ => continue_

end Finishes

end Step

open Step (Finishes)

theorem analysisClosed_finishes :
    AnalysisClosed errorFree (fun _ => True) .nothing (fun _ _ _ _ => True) fun _ _ m => m.Finishes where
  toLeafClosed := by constructor <;> intros <;> trivial
  lawful := Grade.lawful_nothing
  pure _ := trivial
  bind _ _ := trivial
  use _ _ _ := trivial
  addVoid := .after fun _ => .continue_
  function _ _ _ _ := trivial
  goesOn := .continue_
  passesBy _ := .continue_
  after _ hf := .after hf
  andThen := .andThen
  guarded r hm := hm.guarded r
  syntaxError _ _ _ h := absurd h (by simp [errorFree])
  addReturned _ := .after fun _ => .after fun _ => .after fun _ => .continue_
  detour _ ha side := .detour _ ha side
  choice c _ _ _ _ ha hb := .choice c ha hb
  inLoop := .inLoop
  switchArms hasDefault _ _ _ harms := .switchArms (forall_mem_of_forall₂ harms) hasDefault
  method _ _ _ := trivial
  class_ _ _ _ _ _ _ k _ _ := Stmt.gives_true rfl k
  namespace_ _ _ body _ hbody := by
    refine .after fun _ => .after fun saved => .after fun _ => ?_
    cases hm : namespaceBody body with
    | none => exact .continue_
    | some m => exact Step.Gives.ensuring (hbody m hm) _

/-- The analysis of a statement without syntax errors goes on after it. -/
theorem Stmt.finishes (s : Stmt) (hs : s.throughout errorFree = true) (k : NodeKind) :
    (s.analyze k).Finishes :=
  s.analyze_induction analysisClosed_finishes (b := true) hs (fun _ _ => trivial) k

theorem Expr.finishes (e : Expr) (he : e.throughout errorFree = true) (role : Role) (k : NodeKind) :
    (e.analyze role k).Finishes :=
  e.analyze_induction analysisClosed_finishes (b := true) he role k

end PhpFlow
