import PhpFlow.Proofs.Integrity

/-!
# Asking again

A query looks at a state and says what it finds; what has been found before is nothing it looks at. So a query
changes nothing but the sink, and the same query put again right away has the same answer and finds nothing
that the sink does not have already.
-/

namespace PhpFlow

/-- The query does not look at what has been found before. -/
def Query.IgnoresSink {α : Type} (q : Query α) : Prop := ∀ (s : State) (k : Sink), q { s with sink := k } = q s

theorem Query.IgnoresSink.bind {α β : Type} {q : Query α} {f : α → Query β} (hq : q.IgnoresSink)
    (hf : ∀ a, (f a).IgnoresSink) : (q >>= f).IgnoresSink := by
  intro s k
  change Query.bind q f _ = Query.bind q f s
  unfold Query.bind
  rw [hq s k]
  split
  · rfl
  · next a _ _ => rw [hf a s k]

theorem queryClosed_ignoresSink : QueryClosed (fun _ => True) fun q => q.IgnoresSink where
  pure _ _ _ := rfl
  bind := .bind
  ask {_ f} hf s k := by
    change (Except.ok (f _), []) = (Except.ok (f s), [])
    rw [hf s { s with sink := k } rfl]
  ofExcept _ _ _ := rfl
  report _ _ _ _ _ := rfl
  unrecognized _ _ _ _ _ := rfl
  variableType r n _ s k := by
    unfold Meaning.ofVariable
    split <;> rfl
  variableValue _ _ _ _ _ := rfl

theorem Sink.foldl_emit_of_mem {found : List Issue} {k : Sink} (h : ∀ i ∈ found, k.collects → i ∈ k.emitted) :
    found.foldl Sink.emit k = k := by
  induction found with
  | nil => rfl
  | cons i is ih =>
    rw [List.forall_mem_cons] at h
    have hi : k.emit i = k := by
      cases k with
      | discarding => rfl
      | collecting c =>
        have hmem : i ∈ c.emitted := h.1 trivial
        simp [Sink.emit, Collector.emit, hmem]
    rw [List.foldl_cons, hi, ih h.2]

theorem Sink.collects_foldl_emit (found : List Issue) (k : Sink) :
    (found.foldl Sink.emit k).collects ↔ k.collects := by
  induction found generalizing k with
  | nil => rfl
  | cons i is ih =>
    rw [List.foldl_cons, ih]
    cases k <;> rfl

theorem Sink.foldl_emit_again (found : List Issue) (k : Sink) :
    found.foldl Sink.emit (found.foldl Sink.emit k) = found.foldl Sink.emit k := by
  refine foldl_emit_of_mem fun i hi hk => ?_
  rw [collects_foldl_emit] at hk
  exact (mem_emitted_foldl_iff found k i).mpr (.inr ⟨hk, hi⟩)

theorem Query.IgnoresSink.repeats {α : Type} {q : Query α} (hq : q.IgnoresSink) (s : State) :
    ∃ k, Step.query q s = ((q s).1, { s with sink := k }) ∧
      Step.query q { s with sink := k } = ((q s).1, { s with sink := k }) := by
  refine ⟨(q s).2.foldl Sink.emit s.sink, Step.query_eq q s, ?_⟩
  rw [Step.query_eq, hq]
  simp only [Sink.foldl_emit_again]

/-- Asking for the type or the value of an expression changes nothing in the state but what has been found.
Asking a second time gives the same answer, or the same fault, and leaves that as it is too. -/
theorem queries_are_repeatable (e : Expr) (s : State) :
    (∃ r k, Step.query e.type s = (r, { s with sink := k }) ∧
      Step.query e.type { s with sink := k } = (r, { s with sink := k })) ∧
    ∃ r k, Step.query e.value s = (r, { s with sink := k }) ∧
      Step.query e.value { s with sink := k } = (r, { s with sink := k }) := by
  have he := e.meaning_induction queryClosed_ignoresSink fun _ _ => trivial
  exact ⟨⟨_, he.type.repeats s⟩, ⟨_, he.value.repeats s⟩⟩

end PhpFlow
