import PhpFlow.Proofs.Asking

/-!
# Faults of queries

Asking for the type or the value of an expression may end in a fault about a number, but in no other: faults
about scopes are caught where a variable is looked up. As long as there is a current scope none arises, and an
internal error that is found is about an operator that does not exist.
-/
namespace PhpFlow

variable {α β : Type}
variable {s : State}

open NumericOnly (ok)

def Query.NumericFaults (q : Query α) : Prop := ∀ s, NumericOnly (q s).1

namespace Query.NumericFaults

theorem ask (f : State → α) : (Query.ask f).NumericFaults := fun s => ok (f s)

theorem ofExcept {r : Except Fault α} (hr : NumericOnly r) : (Query.ofExcept r).NumericFaults :=
  fun _ => hr

theorem report (kind : IssueKind) (message : String) (range : Option Range) :
    (Query.report kind message range).NumericFaults :=
  fun _ => ok ()

end Query.NumericFaults

/-- If the issue is an internal error, it is about an operator that does not exist. -/
def Issue.IsOrdinary (i : Issue) : Prop :=
  i.kind = .internalError →
    ∃ token, Operator.ofToken? token = none ∧
      i.message = "unrecognized binary operator " ++ Text.quote token

/-- The query ends in no fault but one about a number, and as long as there is a current scope all issues
it finds are ordinary. A syntax error is never among them. -/
structure Query.Orderly (q : Query α) : Prop where
  faults : q.NumericFaults
  issues : ∀ s sc, s.currentScope = .ok sc → ∀ i ∈ (q s).2, i.IsOrdinary
  noSyntaxError : ∀ s, ∀ i ∈ (q s).2, i.kind ≠ .parseError

/-- A scope that cannot be had is an internal fault. -/
theorem State.isInternal_of_currentScope {e : Fault} (h : s.currentScope = .error e) : e.isInternal := by
  unfold State.currentScope State.currentHandle Arena.get at h
  split at h
  · simp only [bind, Except.bind] at h
    split at h
    · cases h
    · cases h
      rfl
  · cases h
    rfl

theorem Query.eq_of_mem_report {kind : IssueKind} {message : String} {range : Option Range} {i : Issue}
    (hi : i ∈ (Query.report kind message range s).2) : i = ⟨kind, message, range.map s.position⟩ := by
  simpa [Query.report] using hi

theorem Query.mem_bind {q : Query α} {f : α → Query β} {i : Issue} (hi : i ∈ ((q >>= f) s).2) :
    i ∈ (q s).2 ∨ ∃ a, i ∈ (f a s).2 := by
  change i ∈ (Query.bind q f s).2 at hi
  unfold Query.bind at hi
  split at hi
  · next hs =>
    rw [hs]
    exact .inl hi
  · next hs =>
    rw [hs]
    exact (List.mem_append.mp hi).imp_right fun h => ⟨_, h⟩

namespace Query.Orderly

theorem silent {q : Query α} (hq : q.NumericFaults) (hsilent : ∀ s, (q s).2 = []) : q.Orderly where
  faults := hq
  issues s sc _ i hi := by
    rw [hsilent s] at hi
    cases hi
  noSyntaxError s i hi := by
    rw [hsilent s] at hi
    cases hi

theorem pure (a : α) : (Query.pure a).Orderly := silent (fun _ => ok a) fun _ => rfl

theorem ask (f : State → α) : (Query.ask f).Orderly := silent (.ask f) fun _ => rfl

theorem ofExcept {r : Except Fault α} (hr : NumericOnly r) : (Query.ofExcept r).Orderly :=
  silent (.ofExcept hr) fun _ => rfl

theorem report {kind : IssueKind} (hkind : kind ≠ .internalError ∧ kind ≠ .parseError) (message : String)
    (range : Option Range) : (Query.report kind message range).Orderly where
  faults := .report kind message range
  issues s sc _ i hi := by
    obtain rfl := eq_of_mem_report hi
    exact fun hk => absurd hk hkind.1
  noSyntaxError s i hi := by
    obtain rfl := eq_of_mem_report hi
    exact hkind.2

theorem bind {q : Query α} {f : α → Query β} (hq : q.Orderly) (hf : ∀ a, (f a).Orderly) :
    (q >>= f).Orderly := by
  constructor
  · intro s e he
    change (Query.bind q f s).1 = .error e at he
    unfold Query.bind at he
    split at he
    · next hs =>
      cases he
      exact hq.faults s e (by rw [hs])
    · exact (hf _).faults s e he
  · intro s sc hsc i hi
    rcases mem_bind hi with hi | ⟨a, hi⟩
    · exact hq.issues s sc hsc i hi
    · exact (hf a).issues s sc hsc i hi
  · intro s i hi
    rcases mem_bind hi with hi | ⟨a, hi⟩
    · exact hq.noSyntaxError s i hi
    · exact (hf a).noSyntaxError s i hi

theorem unrecognized (r : Range) {token : String} (h : Operator.ofToken? token = none) :
    (Meaning.unrecognized r token : Query (Option α)).Orderly := by
  refine .bind ⟨.report _ _ _, ?_, ?_⟩ fun _ => .pure none
  · intro s sc _ i hi
    obtain rfl := eq_of_mem_report hi
    exact fun _ => ⟨token, h, rfl⟩
  · intro s i hi
    obtain rfl := eq_of_mem_report hi
    exact IssueKind.noConfusion

/-- Where the current scope is looked at, the fault that there is none becomes an issue. -/
theorem ofScope (r : Range) (f : Scope → Option α) :
    (Query.guarded r (Query.askFault fun s => do
      let scope ← s.currentScope
      return f scope)).Orderly := by
  constructor
  · intro s e he
    cases hs : s.currentScope with
    | error e' =>
      have hint := State.isInternal_of_currentScope hs
      simp [Query.guarded, Query.askFault, hs, Bind.bind, Except.bind, hint] at he
    | ok scope =>
      simp [Query.guarded, Query.askFault, hs, Bind.bind, Except.bind, Pure.pure, Except.pure] at he
  · intro s sc hsc i hi
    simp [Query.guarded, Query.askFault, hsc, Bind.bind, Except.bind, Pure.pure, Except.pure] at hi
  · intro s i hi
    cases hs : s.currentScope with
    | error e =>
      have hint := State.isInternal_of_currentScope hs
      simp [Query.guarded, Query.askFault, hs, Bind.bind, Except.bind, hint] at hi
      simp [hi]
    | ok scope =>
      simp [Query.guarded, Query.askFault, hs, Bind.bind, Except.bind, Pure.pure, Except.pure] at hi

end Query.Orderly

abbrev Operands.Orderly (o : Operands) : Prop := o.Has fun q => q.Orderly

abbrev Meaning.Orderly (m : Meaning) : Prop := m.Has fun q => q.Orderly

theorem queryClosed_orderly : QueryClosed (fun _ => True) fun q => q.Orderly where
  pure := .pure
  bind := .bind
  ask _ := .ask _
  ofExcept := .ofExcept
  report := .report
  unrecognized := .unrecognized
  variableType r n _ := by
    unfold Meaning.ofVariable
    split
    · exact .ask _
    · exact .ofScope r _
  variableValue r n _ := .ofScope r _

theorem Operands.orderly_ofExprs (r : Range) (a b : Expr) {m n : Meaning} (hm : m.Orderly)
    (hn : n.Orderly) : (Operands.ofExprs r a b m n).Orderly :=
  ⟨hm.type, hn.type, hm.value, hn.value, .ask _⟩

theorem Expr.orderly_meaning (e : Expr) : e.meaning.Orderly :=
  e.meaning_induction queryClosed_orderly fun _ _ => trivial

/-- Asking for the type of an expression ends in no fault but one about a number. -/
theorem Expr.numericFaults_type (e : Expr) : e.type.NumericFaults := e.orderly_meaning.type.faults

/-- Asking for the value of an expression ends in no fault but one about a number. -/
theorem Expr.numericFaults_value (e : Expr) : e.value.NumericFaults := e.orderly_meaning.value.faults

end PhpFlow
