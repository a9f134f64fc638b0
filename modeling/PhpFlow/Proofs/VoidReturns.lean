import PhpFlow.Proofs.Logging

/-!
# Functions that may return nothing

What has been found of a function is stored in the symbol table. Whether the end of the code can be reached is
not asked: only where there is no return statement at all the function is said to return nothing.
-/
namespace PhpFlow

open List

def TypeUnion.mayBeNothing (u : TypeUnion) : Bool :=
  u.contains (.primitive .void) || u.contains (.primitive .null)

/-- The type of what a function returns, as it is put together in the run of a step: nothing or null is part of
it if there is no return statement, or if it is part of what one of them returns, and for no other reason. -/
def Function.Infers {α : Type} (f : Function) (m : Step α) (s : State) (u : TypeUnion) : Prop :=
  ∃ found, Forall₂ (Returned m s) f.returns found ∧
    (u.mayBeNothing = true ↔ f.returns = [] ∨ ∃ r ∈ found, r.1.mayBeNothing = true)

section Definitions

variable {α β : Type} {f : Function} {m : Step α} {s t : State} {u : TypeUnion} {h : Handle} {sc : Scope}

theorem Function.Infers.lift {n : Step β} (hu : f.Infers m s u) (hasks : ∀ {e v}, m.Asks e v s → n.Asks e v t) :
    f.Infers n t u := by
  obtain ⟨found, hfound, hnothing⟩ := hu
  exact ⟨found, hfound.imp fun _ _ => Returned.lift hasks _ _, hnothing⟩

/-- A definition is followed by the rest of the code. -/
theorem Step.Ends.definition {m : Step Unit} {Q : TypeUnion → State → Prop}
    (hm : m.Ends s (fun _ t => ∃ u, f.Infers m s u ∧ Q u t) fun _ => True) (r : Range) :
    (∃ t u, Step.guarded r true (Step.thenContinue m) s = (.ok true, t) ∧ Q u t ∧
        f.Infers (Step.guarded r true (Step.thenContinue m)) s u) ∨
      ∃ e t, Step.guarded r true (Step.thenContinue m) s = (.error e, t) ∧ e.isNumeric := by
  have hrun : (Step.guarded r true (Step.thenContinue m)).Ends s
      (fun ok t => ok = true ∧ ∃ u, f.Infers m s u ∧ Q u t) fun _ => True :=
    (hm.next fun _ t ht => .pure ⟨rfl, ht⟩).guarded
  rcases hrun.cases with ⟨_, t, ht, rfl, u, hu, hQ⟩ | ⟨e, t, ht, hnumeric, -⟩
  · exact .inl ⟨t, u, ht, hQ, hu.lift fun hasks => .guarded r true (.first hasks)⟩
  · exact .inr ⟨e, t, ht, hnumeric⟩

end Definitions

end PhpFlow
