import PhpFlow.Proofs.Locality

/-!
# What an expression depends on

The type and the value of an expression depend on what its names stand for and on the types and values of
the variables that it consults, and on nothing else in the state. In particular a write to another variable
does not change them.
-/
namespace PhpFlow

/-- In one file names stand for the same, and in the current scopes the variables in `V` have the same types
and the same values. -/
structure State.Agree (V : String → Prop) (s t : State) : Prop where
  file : t.file = s.file
  bearings : t.bearings = s.bearings
  scopes : ∃ sc sc', s.currentScope = .ok sc ∧ t.currentScope = .ok sc' ∧ ∀ x, V x →
    (sc'.var? x).bind Variable.flowType = (sc.var? x).bind Variable.flowType ∧
    (sc'.var? x).bind Variable.flowValue = (sc.var? x).bind Variable.flowValue

namespace State.Agree

variable {V : String → Prop} {s t : State}

theorem sink {sc : Scope} (hs : s.currentScope = .ok sc) (k : Sink) : s.Agree V { s with sink := k } :=
  ⟨rfl, rfl, sc, sc, hs, hs, fun _ _ => ⟨rfl, rfl⟩⟩

/-- A variable that is not in `V` may change. -/
theorem updateVar {sc : Scope} {b : String} {f : Variable → Variable} (hf : ∀ v, (f v).name = v.name)
    (hfile : t.file = s.file) (hbearings : t.bearings = s.bearings) (hs : s.currentScope = .ok sc)
    (ht : t.currentScope = .ok (sc.updateVar b f)) : s.Agree (· ≠ b) t := by
  refine ⟨hfile, hbearings, sc, _, hs, ht, fun x hx => ?_⟩
  rw [Scope.var?_updateVar sc hf, if_neg hx]
  exact ⟨rfl, rfl⟩

end State.Agree

/-- The query has the same answer and finds the same issues wherever names and the variables in `V` are the
same. -/
def Query.Depends {α : Type} (V : String → Prop) (q : Query α) : Prop := ∀ s t, State.Agree V s t → q t = q s

namespace Query.Depends

variable {V : String → Prop} {α β : Type}

theorem pure (a : α) : (Query.pure a).Depends V := fun _ _ _ => rfl

theorem bind {q : Query α} {f : α → Query β} (hq : q.Depends V) (hf : ∀ a, (f a).Depends V) :
    (q >>= f).Depends V := by
  intro s t h
  change Query.bind q f t = Query.bind q f s
  unfold Query.bind
  rw [hq s t h]
  split
  · rfl
  · next a _ _ => rw [hf a s t h]

theorem ask {f : State → α} (hf : ∀ s t : State, t.bearings = s.bearings → f t = f s) :
    (Query.ask f).Depends V := by
  intro s t h
  rw [Query.ask, Query.ask, hf s t h.bearings]

theorem ofExcept (r : Except Fault α) : (Query.ofExcept r).Depends V := fun _ _ _ => rfl

theorem report (kind : IssueKind) (message : String) (range : Option Range) :
    (Query.report kind message range).Depends V := by
  intro s t h
  rw [Query.report, Query.report, State.position_of_file h.file]

/-- Something that the current scope says about a variable. -/
theorem ofScope (r : Range) {n : String} {f : Variable → Option α}
    (hf : ∀ s t sc sc', State.Agree V s t → s.currentScope = .ok sc → t.currentScope = .ok sc' →
      (sc'.var? n).bind f = (sc.var? n).bind f) :
    (Query.guarded r (Query.askFault fun s => do
      let scope ← s.currentScope
      return (scope.var? n).bind f)).Depends V := by
  intro s t h
  obtain ⟨sc, sc', hs, ht, -⟩ := h.scopes
  simp [Query.guarded, Query.askFault, hs, ht, Bind.bind, Except.bind, Pure.pure, Except.pure,
    hf s t sc sc' h hs ht]

end Query.Depends

theorem queryClosed_depends (V : String → Prop) : QueryClosed V fun q => q.Depends V where
  pure := .pure
  bind := .bind
  ask := .ask
  ofExcept _ := .ofExcept _
  report _ := .report _
  unrecognized r _ _ := .bind (.report _ _ _) fun _ => .pure none
  variableType r n hn := by
    unfold Meaning.ofVariable
    split
    · refine .ask fun s t h => ?_
      have hclass : t.currentClass = s.currentClass := congrArg Bearings.currentClass h
      simp only [Meaning.thisType, hclass]
    · refine .ofScope r fun s t sc sc' h hs ht => ?_
      obtain ⟨sc₁, sc₁', hs₁, ht₁, hsame⟩ := h.scopes
      obtain rfl : sc₁ = sc := Except.ok.inj (hs₁.symm.trans hs)
      obtain rfl : sc₁' = sc' := Except.ok.inj (ht₁.symm.trans ht)
      exact (hsame n hn).1
  variableValue r n hn := by
    refine .ofScope r fun s t sc sc' h hs ht => ?_
    obtain ⟨sc₁, sc₁', hs₁, ht₁, hsame⟩ := h.scopes
    obtain rfl : sc₁ = sc := Except.ok.inj (hs₁.symm.trans hs)
    obtain rfl : sc₁' = sc' := Except.ok.inj (ht₁.symm.trans ht)
    exact (hsame n hn).2

theorem Expr.depends_type {V : String → Prop} (e : Expr) (he : ∀ x ∈ e.consults, V x) : e.type.Depends V :=
  (e.meaning_induction (queryClosed_depends V) he).type

theorem Expr.depends_value {V : String → Prop} (e : Expr) (he : ∀ x ∈ e.consults, V x) : e.value.Depends V :=
  (e.meaning_induction (queryClosed_depends V) he).value

end PhpFlow
