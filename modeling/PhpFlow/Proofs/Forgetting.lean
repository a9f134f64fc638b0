import PhpFlow.Proofs.Coverage
import PhpFlow.Proofs.Frames
import PhpFlow.Proofs.Standing

/-!
# How the body of a loop begins

The body of a loop begins in a branch of the scope before the loop: what had a known value there has it
still, also if the body writes to it further on. Only what the condition narrows is not known by value.
-/
namespace PhpFlow

section Loops

/-- A loop whose body may be skipped: what is analysed before it begins, which gives its body unless the
analysis has to stop, and how the branch is made in which the body begins. -/
structure Loop where
  range : Range
  lead : Step (Option (Step Bool))
  enter : Step Handle

def Loop.analyze (L : Loop) : Step Bool :=
  Step.guarded L.range true do
    match ← L.lead with
    | none => return false
    | some body => loopBody L.enter body

def bodyAfter (lead : Step Bool) (body : Step (Step Bool)) : Step (Option (Step Bool)) := do
  if ← lead then return some (← body) else return none

def Stmt.loop? : Stmt → Option Loop
  | .while_ r c b => some ⟨r, bodyAfter (c.evaluate .while_) (pure (b.analyze .while_)), c.branch .onTrue⟩
  | .for_ r is cs ns b =>
    some ⟨r, bodyAfter (Step.andThen (evaluateAll is .for_) (evaluateAll cs .for_))
      (pure (Step.andThen (analyzeStatements b .for_) (evaluateAll ns .for_))), forBranch cs⟩
  | .foreach r i v b k _ =>
    some ⟨r, bodyAfter (i.evaluate .foreach) do
        let types := elementTypes? (← Step.query i.type)
        return do
          bindElement k v types
          b.analyze .foreach,
      do
        let parent ← Step.currentHandle
        Step.branch parent .onTrue⟩
  | _ => none

variable {loop : Stmt} {L : Loop}

theorem bodyAfter_bind (lead : Step Bool) (body : Step (Step Bool)) (f : Step Bool → Step Bool) :
    (do
      match ← bodyAfter lead body with
      | none => return false
      | some body => f body : Step Bool) = Step.andThen lead (body >>= f) := by
  unfold bodyAfter Step.andThen
  rw [Step.bind_assoc]
  congr 1
  funext ok
  cases ok with
  | false => rfl
  | true => exact Step.bind_assoc _ _ _

theorem andThen_assoc (a b c : Step Bool) :
    Step.andThen (Step.andThen a b) c = Step.andThen a (Step.andThen b c) := by
  refine (Step.bind_assoc _ _ _).trans (congrArg _ (funext fun ok => ?_))
  cases ok <;> rfl

theorem Stmt.analyze_loop (h : loop.loop? = some L) (k : NodeKind) : loop.analyze k = L.analyze := by
  cases loop with
  | while_ r c b =>
    obtain rfl := Option.some.inj h
    rw [Stmt.analyze, Loop.analyze, bodyAfter_bind]
    rfl
  | for_ r is cs ns b =>
    obtain rfl := Option.some.inj h
    rw [Stmt.analyze, Loop.analyze, bodyAfter_bind, andThen_assoc]
    rfl
  | foreach r i v b k byRef =>
    obtain rfl := Option.some.inj h
    rw [Stmt.analyze, Loop.analyze, bodyAfter_bind, Step.bind_assoc]
    rfl
  | _ => cases h

theorem Stmt.makesBranch_loop (h : loop.loop? = some L) : MakesBranch L.enter := by
  cases loop with
  | while_ r c b =>
    obtain rfl := Option.some.inj h
    exact .condition c .onTrue
  | for_ r is cs ns b =>
    obtain rfl := Option.some.inj h
    exact makesBranch_forBranch cs
  | foreach r i v b k byRef =>
    obtain rfl := Option.some.inj h
    exact .current .onTrue
  | _ => cases h

/-- A condition leaves a variable as it stands, or narrows it. -/
theorem Narrows.standing_or_narrowed {ν : Names} {c : Expr} {side : BranchSide} {sc arm : Scope}
    (h : Narrows ν c side sc arm) (x : String) :
    arm.standing x = sc.standing x ∨ (arm.standing x).narrowed ≠ none := by
  have hone : ∀ {n u} {sc arm : Scope}, arm.vars = (sc.narrowed n u).vars →
      arm.standing x = sc.standing x ∨ (arm.standing x).narrowed ≠ none := by
    intro n u sc arm hvars
    rw [Scope.standing_congr hvars x]
    by_cases hx : x = n
    · refine .inr ?_
      have hvar := Scope.var?_updateVar sc (f := fun v => { v with narrowed := some u }) (fun _ => rfl) n x
      rw [if_pos hx] at hvar
      simp [Scope.standing, Scope.narrowed, hvar, Variable.standing]
    · exact .inl (Scope.map_standing_updateVar (g := id) (f := fun v => { v with narrowed := some u })
        (fun _ => rfl) fun he => absurd he hx)
  induction h with
  | same hvars => exact .inl (Scope.standing_congr hvars x)
  | truth _ _ hvars | null _ _ _ _ _ hvars | «instance» _ _ _ _ _ hvars => exact hone hvars
  | paren _ ih => exact ih
  | not _ ih => exact ih
  | both _ _ _ _ iha ihb =>
    rcases ihb with hb | hb
    · rw [hb]
      exact iha
    · exact .inr hb

/-- In the branch of a condition the values are those from before, except of what is narrowed there. -/
theorem Narrows.flowValue_eq_none_iff {ν : Names} {c : Expr} {side : BranchSide} {sc arm : Scope}
    (h : Narrows ν c side sc arm) (x : String) : (arm.var? x).bind Variable.flowValue = none ↔
      (sc.var? x).bind Variable.flowValue = none ∨ (arm.var? x).bind Variable.narrowed ≠ none := by
  rw [← Scope.flowValue_standing, ← Scope.flowValue_standing, ← Scope.narrowed_standing]
  by_cases hnarrowed : (arm.standing x).narrowed = none
  · have hsame := (h.standing_or_narrowed x).resolve_right (not_not.mpr hnarrowed)
    rw [hsame] at hnarrowed ⊢
    simp [hnarrowed]
  · have hsome : (arm.standing x).narrowed.isSome = true := Option.isSome_iff_ne_none.mpr hnarrowed
    simp [Standing.flowValue, hsome, hnarrowed]

/-- Where the body of a loop begins, a variable has no known value exactly if it had none before or if the
condition has narrowed it; what the body goes on to write does not matter. -/
theorem loop_body_begins_with_earlier_values (loop : Stmt) (L : Loop) (hloop : loop.loop? = some L)
    (where_ : NodeKind) (s : State) (hs : s.Occurs) (sc : Scope) (hsc : s.currentScope = .ok sc) :
    loop.analyze where_ = L.analyze ∧
    ((∃ k t arm, L.enter s = (.ok k, t) ∧ t.arena.scope? k = some arm ∧
        ∀ x, (arm.var? x).bind Variable.flowValue = none ↔
          (sc.var? x).bind Variable.flowValue = none ∨ (arm.var? x).bind Variable.narrowed ≠ none) ∨
      ∃ e t, L.enter s = (.error e, t) ∧ e.isNumeric) := by
  refine ⟨Stmt.analyze_loop hloop where_, ?_⟩
  obtain ⟨h, w⟩ := hs.working hsc
  rcases ((Stmt.makesBranch_loop hloop).narrows s h sc w).cases with
    ⟨k, t, ht, -, arm, harm, c, side, hn⟩ | ⟨e, t, ht, hnumeric, -⟩
  · exact .inl ⟨k, t, arm, ht, harm, hn.flowValue_eq_none_iff⟩
  · exact .inr ⟨e, t, ht, hnumeric⟩

def oneAssigned : Stmt := .expression .zero (.assign .zero (.var .zero "x") (.integer .zero 1) false)

/-- `while ($go) { $x = 2; }` -/
def twoInLoop : Stmt :=
  .while_ .zero (.var .zero "go") (.block .zero
    [.expression .zero (.assign .zero (.var .zero "x") (.integer .zero 2) false)])

def oneKnownBefore : State := (oneAssigned.analyze .program (.new {} {} none .discarding)).2

theorem occurs_oneKnownBefore : oneKnownBefore.Occurs :=
  oneAssigned.remains_analyze .program _ ⟨[], .start _ _ _⟩

theorem twoInLoop_enters_body : oneKnownBefore.Occurs ∧ ∃ L sc, twoInLoop.loop? = some L ∧
    oneKnownBefore.currentScope = .ok sc ∧ twoInLoop.analyze .program = L.analyze ∧
    ((∃ k t arm, L.enter oneKnownBefore = (.ok k, t) ∧ t.arena.scope? k = some arm ∧
        ∀ x, (arm.var? x).bind Variable.flowValue = none ↔
          (sc.var? x).bind Variable.flowValue = none ∨ (arm.var? x).bind Variable.narrowed ≠ none) ∨
      ∃ e t, L.enter oneKnownBefore = (.error e, t) ∧ e.isNumeric) :=
  ⟨occurs_oneKnownBefore, _, _, rfl, rfl,
    loop_body_begins_with_earlier_values twoInLoop _ rfl .program _ occurs_oneKnownBefore _ rfl⟩

/-- The body begins with the value from before the loop, although it writes another one. -/
theorem twoInLoop_begins_with_one : oneKnownBefore.config.trackLoopValues = false ∧
    (∃ L body t k u arm, twoInLoop.loop? = some L ∧ L.lead oneKnownBefore = (.ok (some body), t) ∧
      L.enter t = (.ok k, u) ∧ u.arena.scope? k = some arm ∧
      ((arm.var? "x").bind Variable.flowValue).map Value.toInt? = some (.ok (some 1))) ∧
    ((twoInLoop.analyze .program oneKnownBefore).2.currentScope.toOption.map fun sc =>
      (sc.trail "x").history.length) = some 2 := by
  refine ⟨rfl, ⟨_, _, _, _, _, _, rfl, rfl, rfl, rfl, ?_⟩, ?_⟩
  · decide
  · decide +kernel

end Loops

end PhpFlow
