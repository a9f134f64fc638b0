import PhpFlow.Proofs.Consulting
import PhpFlow.Proofs.Finishing
import PhpFlow.Proofs.Untouched

/-!
# Chained assignments

In `$a = $b = e` the expression `e` is looked at for either variable, the second time when the first one has
been written. So both variables have the same contents afterwards if `e` does not consult the inner one.
-/
namespace PhpFlow

/-- The assignment `$a = $b = e;` -/
def chainedAssignment (r r₁ r₂ : Range) (a b : VariableName) (e : Expr) : Stmt :=
  .expression r
    (.assign r₁ (.var a.range a.name) (.assign r₂ (.var b.range b.name) e false) false)

def State.kept (s : State) (v : Option Value) : Option Value :=
  if 0 < s.loopDepth && !s.config.trackLoopValues then none else v

/-- From `s` to `t` nothing was done but that a variable of the current scope was given the type and the value
of an expression. -/
structure State.Stores (h : Handle) (sc : Scope) (x : VariableName) (e : Expr) (u : Option TypeUnion)
    (v : Option Value) (s t : State) : Prop where
  type : (e.type s).1 = .ok u
  value : (e.value s).1 = .ok v
  undisturbed : Undisturbed h s t
  rest : t.rest = { s.rest with sink := t.sink }
  scope : t.arena.scope? h = some (sc.updateVar x.name
    (·.write ⟨s.arena.nextWrite, u.getD (.prim .mixed), s.kept v, some x.range⟩))

namespace Step

variable {α : Type}

theorem Ends.gives {m : Step α} {s : State} {P : α → Prop} {Q : α → State → Prop} {E : State → Prop}
    (h : m.Ends s Q E) (hm : m.Gives P) : m.Ends s (fun a t => P a ∧ Q a t) E := by
  unfold Ends Runs at h ⊢
  split at h
  · next a t ht => exact ⟨hm s a t ht, h⟩
  · exact h

theorem ends_storeFrom {x : VariableName} (hx : x.name ≠ "this") (e : Expr) {s : State} {h : Handle}
    {sc : Scope} (w : s.Working h sc) :
    ((Expr.var x.range x.name).storeFrom e true).Ends s (fun _ t => ∃ u v, s.Stores h sc x e u v t)
      (fun t => t.stack = s.stack) := by
  have hscope := State.currentScope_eq w
  apply Runs.bind
  apply ends_query e.numericFaults_type _ fun _ => rfl
  intro u k hu
  apply Runs.bind
  apply ends_query e.numericFaults_value _ fun _ => rfl
  intro v k' hv
  -- The issues found so far do not change the value.
  rw [e.depends_value (V := fun _ => True) (fun _ _ => trivial) _ _ (.sink hscope k)] at hv
  change ((Expr.var x.range x.name).write (u.getD (.prim .mixed)) v).Ends _ _ _
  rw [Expr.write, if_neg hx]
  apply Runs.bind
  apply Runs.get
  have hw : ({ s with sink := k' } : State).Working h sc := ⟨w.handle, w.scope, w.placed⟩
  apply (Acts.write x.name (u.getD (.prim .mixed)) (s.kept v) (some x.range) _ h sc hw).mono _ fun _ ht => ht
  rintro - t ⟨hu', sc', hsc', hlocal⟩
  obtain ⟨rfl, -, hrest⟩ := Local.mk.inj hlocal
  refine ⟨u, v, hu, hv, ⟨hu'.stack, hu'.others, hu'.placed⟩, ?_, hsc'⟩
  have hsink : t.sink = k' := congrArg State.sink hrest
  rw [hrest, hsink]
  rfl

end Step

theorem State.bearings_of_rest {s t : State} (h : t.rest = { s.rest with sink := t.sink }) :
    t.bearings = s.bearings := by
  change t.rest.bearings = s.rest.bearings
  rw [h]
  rfl

theorem State.kept_of_rest {s t : State} (h : t.rest = { s.rest with sink := t.sink }) :
    t.kept = s.kept := by
  change t.rest.kept = s.rest.kept
  rw [h]
  rfl

theorem Scope.standing_write_of_ne {sc : Scope} {name x : String} (hx : x ≠ name) (w : Write) :
    (sc.updateVar name (·.write w)).standing x = sc.standing x := by
  rw [standing, standing, var?_updateVar sc (f := (·.write w)) fun _ => rfl, if_neg hx]

/-- A variable without a documented type has the contents of its last write. -/
theorem Scope.contents_write {sc : Scope} {x : String} (hx : (sc.standing x).commentType = none) (w : Write) :
    ((sc.updateVar x (·.write w)).standing x).flowType = some (.flatten [w.type]) ∧
      ((sc.updateVar x (·.write w)).standing x).flowValue = Value.common? [w.value] := by
  unfold standing at hx ⊢
  rw [var?_updateVar sc (f := (·.write w)) fun _ => rfl, if_pos rfl]
  cases hv : sc.var? x with
  | none => simp [Variable.standing, Variable.write, Variable.trail, Standing.flowType, Standing.flowValue]
  | some v =>
    have hcomment : v.commentType = none := by simpa [hv, Variable.standing] using hx
    simp [Variable.standing, Variable.write, Variable.trail, Standing.flowType, Standing.flowValue, hcomment]

section Chain

variable {a b : VariableName} {e : Expr} {r r₁ r₂ : Range}

def Scope.Contain (sc : Scope) (xs : List String) (u : TypeUnion) (v : Option Value) : Prop :=
  ∀ x ∈ xs, (sc.var? x).bind Variable.flowType = some u ∧ (sc.var? x).bind Variable.flowValue = v

/-- The second variable to be written gets what the first one has got. -/
theorem Step.ends_storeAgain (hab : a.name ≠ b.name) (ha : a.name ≠ "this") (hconsults : b.name ∉ e.consults)
    {s t : State} {h : Handle} {sc : Scope} (w : s.Working h sc)
    (hcomments : ∀ x ∈ [a.name, b.name], (sc.standing x).commentType = none)
    {u : Option TypeUnion} {v : Option Value} (hstored : s.Stores h sc b e u v t) :
    ((Expr.var a.range a.name).storeFrom (.assign r₂ (.var b.range b.name) e false) true).Ends t
      (fun _ t' => ∃ sc' u v, Undisturbed h s t' ∧ t'.arena.scope? h = some sc' ∧
        sc'.Contain [a.name, b.name] u v)
      (fun t' => t'.stack = s.stack) := by
  obtain ⟨hu, hv, hd, hrest, hsc⟩ := hstored
  have w' := working_of_undisturbed w hd hsc
  have hagree : s.Agree (· ≠ b.name) t := .updateVar (f := (·.write _)) (fun _ => rfl)
    (show t.rest.file = s.rest.file by rw [hrest]) (State.bearings_of_rest hrest)
    (State.currentScope_eq w) (State.currentScope_eq w')
  have hother : ∀ x ∈ e.consults, x ≠ b.name := fun x hx he => hconsults (he ▸ hx)
  apply (ends_storeFrom ha (.assign r₂ (.var b.range b.name) e false) w').mono _
    fun _ ht => ht.trans hd.stack
  rintro - t' ⟨u', v', hu', hv', hd', -, hsc'⟩
  -- An assignment means what its right side does, and that has not changed.
  obtain rfl : u' = u := by
    change (e.type t).1 = .ok u' at hu'
    rw [e.depends_type hother s t hagree, hu] at hu'
    exact (Except.ok.inj hu').symm
  obtain rfl : v' = v := by
    change (e.value t).1 = .ok v' at hv'
    rw [e.depends_value hother s t hagree, hv] at hv'
    exact (Except.ok.inj hv').symm
  refine ⟨_, .flatten [u'.getD (.prim .mixed)], Value.common? [s.kept v'], hd.trans hd', hsc', ?_⟩
  rw [State.kept_of_rest hrest] at hsc' ⊢
  intro x hx
  rw [← Scope.flowType_standing, ← Scope.flowValue_standing]
  rcases List.mem_pair.mp hx with rfl | rfl
  · apply Scope.contents_write
    rw [Scope.standing_write_of_ne hab]
    exact hcomments _ hx
  · rw [Scope.standing_write_of_ne hab.symm]
    exact Scope.contents_write (hcomments _ hx) _

theorem Scope.commentType_standing (sc : Scope) (x : String) :
    (sc.standing x).commentType = (sc.var? x).bind Variable.commentType := by
  cases hv : sc.var? x <;> simp [standing, hv, Variable.standing, Standing.unknown]

/-- After `$a = $b = e` both variables have the same type and the same value, if `e` writes to neither of
them, does not consult `$b`, and no doc comment gives them a type. That is so at every moment of an analysis;
only a number that is too large can end it without a result. -/
theorem chained_variables_have_same_contents (where_ : NodeKind) (hab : a.name ≠ b.name)
    (ha : a.name ≠ "this") (hb : b.name ≠ "this") (herrors : e.throughout errorFree = true)
    (hwrites : e.spares [a.name, b.name] = true) (hconsults : b.name ∉ e.consults) (s : State)
    (hs : s.Occurs) (hdoc : s.pendingDoc = none) (sc : Scope) (hsc : s.currentScope = .ok sc)
    (hcomments : ∀ x ∈ [a.name, b.name], (sc.var? x).bind Variable.commentType = none) :
    (∃ t sc' u v, (chainedAssignment r r₁ r₂ a b e).analyze where_ s = (.ok true, t) ∧
      t.currentScope = .ok sc' ∧ sc'.Contain [a.name, b.name] u v) ∨
    ∃ f t, (chainedAssignment r r₁ r₂ a b e).analyze where_ s = (.error f, t) ∧ f.isNumeric := by
  obtain ⟨h, w⟩ := hs.working hsc
  have hends : ((chainedAssignment r r₁ r₂ a b e).analyze where_).Ends s
      (fun ok t => ok = true ∧ ∃ sc' u v, Undisturbed h s t ∧ t.arena.scope? h = some sc' ∧
        sc'.Contain [a.name, b.name] u v)
      (fun t => t.stack = s.stack) := by
    -- First the expression is read and analysed, which leaves both variables alone.
    change (do
      e.read .value
      Step.guarded r₁ true <|
        Step.andThen (Step.guarded r₂ true <|
          Step.andThen (e.analyze .value .assignment) <|
          Step.thenContinue ((Expr.var b.range b.name).storeFrom e true)) <|
        Step.thenContinue ((Expr.var a.range a.name).storeFrom
          (.assign r₂ (.var b.range b.name) e false) true) : Step Bool).Ends _ _ _
    have hread : (e.read .value).Spares [a.name, b.name] := e.spares_read .value
    apply Step.Runs.bind
    apply (hread s h sc w).mono _ fun _ ht => ht
    rintro - s₁ ⟨hd₁, sc₁, hsc₁, hspares₁⟩
    have w₁ := Step.working_of_undisturbed w hd₁ hsc₁
    apply Step.Ends.guarded
    apply Step.Runs.bind
    apply Step.Ends.guarded
    apply Step.Runs.bind
    apply ((e.spares_analyze .value hwrites .assignment s₁ h sc₁ w₁).gives
      (e.finishes herrors .value .assignment)).mono _ fun _ ht => ht.trans hd₁.stack
    rintro _ s₂ ⟨rfl, hd₂, sc₂, hsc₂, hspares₂⟩
    have w₂ := Step.working_of_undisturbed w₁ hd₂ hsc₂
    have hspares := (hspares₁ hdoc).trans (hspares₂ (hspares₁ hdoc).doc)
    have hcomments₂ : ∀ x ∈ [a.name, b.name], (sc₂.standing x).commentType = none := by
      intro x hx
      have hx₂ : sc₂.standing x = sc.standing x := hspares.standing x hx (hs.coherent_trail w.scope x)
      rw [hx₂, Scope.commentType_standing]
      exact hcomments x hx
    -- Then the inner variable is written, and after it the outer one.
    apply Step.Runs.bind
    apply (Step.ends_storeFrom hb e w₂).mono _ fun _ ht => ht.trans (hd₂.stack.trans hd₁.stack)
    rintro - s₃ ⟨u, v, hstored⟩
    apply Step.Runs.pure
    apply Step.Runs.bind
    apply (Step.ends_storeAgain hab ha hconsults w₂ hcomments₂ hstored).mono _
      fun _ ht => ht.trans (hd₂.stack.trans hd₁.stack)
    rintro - t ⟨sc', u, v, hd, hsc', hcontain⟩
    refine Step.Runs.pure ⟨rfl, sc', u, v, ⟨hd.stack.trans (hd₂.stack.trans hd₁.stack), fun k hk => ?_,
      hd.placed⟩, hsc', hcontain⟩
    rw [hd.others k hk, hd₂.others k hk, hd₁.others k hk]
  rcases hends.cases with ⟨_, t, ht, rfl, sc', u, v, hd, hsc', hcontain⟩ | ⟨f, t, ht, hf, -⟩
  · exact .inl ⟨t, sc', u, v, ht, State.currentScope_eq (Step.working_of_undisturbed w hd hsc'), hcontain⟩
  · exact .inr ⟨f, t, ht, hf⟩

end Chain

def numberAssigned (name : String) (n : Int) : Stmt :=
  .expression .zero (.assign .zero (.var .zero name) (.integer .zero n) false)

/-- `$a === null ? 1 : $a + 2` -/
def testedSum : Expr :=
  .ternary .zero (.binary .zero (.var .zero "a") "===" (.null .zero)) (some (.integer .zero 1))
    (.binary .zero (.var .zero "a") "+" (.integer .zero 2))

/-- The state after `$a = 7;` -/
def sevenKnown : State := ((numberAssigned "a" 7).analyze .program (.new {} {} none .discarding)).2

/-- The outer variable may be consulted: it is written last. -/
theorem testedSum_reaches_both :
    testedSum.throughout errorFree = true ∧ testedSum.spares ["a", "b"] = true ∧
    "b" ∉ testedSum.consults ∧ sevenKnown.Occurs ∧ ∃ sc, sevenKnown.currentScope = .ok sc ∧
      (∀ x ∈ ["a", "b"], (sc.var? x).bind Variable.commentType = none) ∧
      ((∃ t sc' u v, (chainedAssignment .zero .zero .zero ⟨.zero, "a"⟩ ⟨.zero, "b"⟩ testedSum).analyze
          .program sevenKnown = (.ok true, t) ∧ t.currentScope = .ok sc' ∧ sc'.Contain ["a", "b"] u v) ∨
        ∃ f t, (chainedAssignment .zero .zero .zero ⟨.zero, "a"⟩ ⟨.zero, "b"⟩ testedSum).analyze .program
          sevenKnown = (.error f, t) ∧ f.isNumeric) := by
  have hoccurs : sevenKnown.Occurs := (numberAssigned "a" 7).remains_analyze .program _ ⟨[], .start _ _ _⟩
  refine ⟨by decide, by decide, by decide, hoccurs, _, rfl, by decide, ?_⟩
  exact chained_variables_have_same_contents .program (by decide) (by decide) (by decide)
    (by decide) (by decide) (by decide) sevenKnown hoccurs rfl _ rfl
    (by decide)

def increment : Expr := .binary .zero (.var .zero "b") "+" (.integer .zero 1)

def oneKnown : State := ((numberAssigned "b" 1).analyze .program (.new {} {} none .discarding)).2

/-- After `$b = 1; $a = $b = $b + 1;` the two variables differ: `$b` is two, but `$a` is three. -/
theorem increment_is_added_twice :
    increment.throughout errorFree = true ∧ increment.spares ["a", "b"] = true ∧ oneKnown.Occurs ∧
    oneKnown.loopDepth = 0 ∧ ∃ t sc,
      (chainedAssignment .zero .zero .zero ⟨.zero, "a"⟩ ⟨.zero, "b"⟩ increment).analyze .program oneKnown =
        (.ok true, t) ∧
      t.currentScope = .ok sc ∧
      ((sc.var? "b").bind Variable.flowValue).map Value.toInt? = some (.ok (some 2)) ∧
      ((sc.var? "a").bind Variable.flowValue).map Value.toInt? = some (.ok (some 3)) := by
  refine ⟨by decide, by decide, ?_, rfl, _, _, rfl, rfl, by decide, by decide⟩
  exact (numberAssigned "b" 1).remains_analyze .program _ ⟨[], .start _ _ _⟩

end PhpFlow
