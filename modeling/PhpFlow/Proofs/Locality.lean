import PhpFlow.Analysis.Step
import PhpFlow.Proofs.Arena
import PhpFlow.Proofs.Faults
import PhpFlow.Proofs.Trail

/-!
# Steps that work in the current scope

A step acts on the current scope alone: it leaves every other scope as it was, makes no scope that lives on,
restores the stack of scopes, and ends in no fault but one about a number. So each step comes down to a
relation between the current scope and the rest of the state before and after, and these relations compose
like the steps do.
-/
namespace PhpFlow

/-- The scopes entered in every function, innermost first, and in the file. -/
def State.stack (s : State) : List (List Handle) × List Handle :=
  (s.frames.map (·.scopes), s.fileFrame.scopes)

def State.rest (s : State) : State :=
  { s with
    arena := .empty
    frames := s.frames.map fun f => { f with scopes := [] }
    fileFrame := { s.fileFrame with scopes := [] } }

structure Names where
  symbols : SymbolTable
  namespaceName : Option QualifiedName
  uses : List (String × QualifiedName)
  currentClass : Option QualifiedName

def State.names (s : State) : Names := ⟨s.symbols, s.namespaceName, s.uses, s.currentClass⟩

/-- What a step can see of a state: the current scope, the number of the next write, and the rest. -/
structure Local where
  scope : Scope
  next : Nat
  rest : State

def State.localView (s : State) (sc : Scope) : Local := ⟨sc, s.arena.nextWrite, s.rest⟩

structure State.Working (s : State) (h : Handle) (sc : Scope) : Prop where
  handle : s.currentHandle = .ok h
  scope : s.arena.scope? h = some sc
  placed : s.arena.Placed

theorem State.Working.root {s : State} {vars : List Variable} (hh : s.currentHandle = .ok 0)
    (ha : s.arena = (Arena.empty.add none .neutral vars).2) :
    s.Working 0 ⟨0, none, .neutral, vars⟩ := by
  have hscope := Arena.scope?_add .empty none .neutral vars
  rw [← ha] at hscope
  refine ⟨hh, hscope 0, fun h sc hsc => ?_⟩
  have hsc' := (hscope h).symm.trans hsc
  split at hsc'
  · next hh =>
    cases hsc'
    exact hh.symm
  · simp [Arena.scope?, Arena.empty] at hsc'

/-- Only the scope `h` has changed; no other was made or discarded. -/
structure Undisturbed (h : Handle) (s t : State) : Prop where
  stack : t.stack = s.stack
  others : ∀ k, k ≠ h → t.arena.scope? k = s.arena.scope? k
  placed : t.arena.Placed

theorem Undisturbed.trans {h : Handle} {s t u : State} (hu : Undisturbed h s t) (hv : Undisturbed h t u) :
    Undisturbed h s u :=
  ⟨hv.stack.trans hu.stack, fun k hk => (hv.others k hk).trans (hu.others k hk), hv.placed⟩

structure Local.SameButSink (l l' : Local) : Prop where
  scope : l'.scope = l.scope
  next : l'.next = l.next
  rest : l'.rest = { l.rest with sink := l'.rest.sink }

namespace State

variable {s : State}

theorem currentFrame_scopes (s : State) : s.currentFrame.scopes = s.stack.1.head?.getD s.stack.2 := by
  cases hf : s.frames <;> simp [currentFrame, stack, hf]

theorem currentHandle_congr {t : State} (h : t.stack = s.stack) : t.currentHandle = s.currentHandle := by
  simp only [currentHandle, currentFrame_scopes, h]

theorem currentScope_eq {h : Handle} {sc : Scope} (w : s.Working h sc) : s.currentScope = .ok sc := by
  simp [currentScope, w.handle, Arena.get_of_scope? w.scope, bind, Except.bind]

theorem stack_updateFrame_push (s : State) (h : Handle) :
    (s.updateFrame fun f => { f with scopes := h :: f.scopes }).currentFrame.scopes =
      h :: s.currentFrame.scopes := by
  cases hf : s.frames <;> simp [updateFrame, currentFrame, hf]

theorem rest_updateFrame_scopes (s : State) (g : List Handle → List Handle) :
    (s.updateFrame fun f => { f with scopes := g f.scopes }).rest = s.rest := by
  cases hf : s.frames <;> simp [updateFrame, rest, hf]

theorem arena_updateFrame (s : State) (g : Frame → Frame) : (s.updateFrame g).arena = s.arena := by
  cases hf : s.frames <;> simp [updateFrame, hf]

/-- Leaving a scope undoes entering it, whatever else has happened to the frames. -/
theorem stack_pop_push {t : State} {h : Handle}
    (ht : t.stack = (s.updateFrame fun f => { f with scopes := h :: f.scopes }).stack) :
    t.currentFrame.scopes = h :: s.currentFrame.scopes ∧
      (t.updateFrame fun f => { f with scopes := s.currentFrame.scopes }).stack = s.stack := by
  constructor
  · rw [currentFrame_scopes, ht, ← currentFrame_scopes, stack_updateFrame_push]
  · cases hs : s.frames with
    | nil =>
      have hf : t.frames = [] := by
        have h1 := congrArg Prod.fst ht
        simpa [updateFrame, stack, hs] using h1
      simp [updateFrame, stack, hf, hs, currentFrame]
    | cons f fs =>
      have h1 := congrArg Prod.fst ht
      have h2 := congrArg Prod.snd ht
      simp only [updateFrame, stack, hs, List.map_cons] at h1 h2
      cases hg : t.frames with
      | nil => simp [hg] at h1
      | cons g gs =>
        simp only [hg, List.map_cons, List.cons.injEq] at h1
        simp [updateFrame, stack, hs, hg, currentFrame, h1.2, h2]

end State

namespace Query

variable {α : Type}

/-- The query has the answer `a` in some state that looks like `l` from the current scope. -/
def Answers (q : Query α) (l : Local) (a : α) : Prop :=
  ∃ s h, s.Working h l.scope ∧ s.localView l.scope = l ∧ (q s).1 = .ok a

end Query

namespace Step

variable {α β : Type}
variable {m : Step α} {s : State} {Q : α → State → Prop} {E : State → Prop} {a : α}
  {Φ : Local → α → Local → Prop} {h : Handle} {sc : Scope} {g : State → State}

theorem bind_assoc {α β γ : Type} (m : Step α) (f : α → Step β) (g : β → Step γ) :
    m >>= f >>= g = m >>= fun a => f a >>= g := by
  funext s
  change Step.bind (Step.bind m f) g s = Step.bind m (fun a => Step.bind (f a) g) s
  unfold Step.bind
  rcases m s with ⟨_ | a, t⟩ <;> rfl

theorem bind_eq_of_ok {f : α → Step β} {t : State} (h : m s = (.ok a, t)) : (m >>= f) s = f a t := by
  change Step.bind m f s = _
  simp only [Step.bind, h]

theorem bind_eq_of_error {f : α → Step β} {e : Fault} {t : State} (h : m s = (.error e, t)) :
    (m >>= f) s = (.error e, t) := by
  change Step.bind m f s = _
  simp only [Step.bind, h]

theorem exists_of_bind_eq_ok {f : α → Step β} {b : β} {u : State} (h : (m >>= f) s = (.ok b, u)) :
    ∃ a t, m s = (.ok a, t) ∧ f a t = (.ok b, u) := by
  rcases hm : m s with ⟨e | a, t⟩
  · simp [bind_eq_of_error hm] at h
  · exact ⟨a, t, rfl, (bind_eq_of_ok hm).symm.trans h⟩

theorem exists_of_ensuring_eq_ok {last : Step Unit} {u : State} (h : Step.ensuring m last s = (.ok a, u)) :
    ∃ t, m s = (.ok a, t) ∧ last t = (.ok (), u) := by
  rcases hm : m s with ⟨e | b, t⟩ <;> rcases hl : last t with ⟨e' | ⟨⟩, v⟩ <;>
    simp [Step.ensuring, hm, hl] at h
  exact ⟨t, by rw [h.1], by rw [hl, h.2]⟩

theorem ensuring_snd (m : Step α) (last : Step Unit) (s : State) :
    (Step.ensuring m last s).2 = (last (m s).2).2 := by
  rcases hm : m s with ⟨r, t⟩
  rcases hl : last t with ⟨e | a, u⟩ <;> simp [Step.ensuring, hm, hl]

theorem foldl_emit (found : List Issue) (s : State) :
    found.foldl emit s = { s with sink := found.foldl Sink.emit s.sink } := by
  induction found generalizing s with
  | nil => rfl
  | cons i is ih => rw [List.foldl_cons, ih, List.foldl_cons, emit]

theorem query_eq (q : Query α) (s : State) :
    Step.query q s = ((q s).1, { s with sink := (q s).2.foldl Sink.emit s.sink }) := by
  rw [← foldl_emit]
  rfl

/-- Run from `s`, the step gives an answer and a state as `Q` says, or a fault and a state as `E` says. -/
def Runs (m : Step α) (s : State) (Q : α → State → Prop) (E : Fault → State → Prop) : Prop :=
  match m s with
  | (.ok a, t) => Q a t
  | (.error e, t) => E e t

namespace Runs

variable {Q' : α → State → Prop} {E E' : Fault → State → Prop}

theorem of_eq {t : State} (h : m s = (.ok a, t)) (hQ : Q a t) : m.Runs s Q E := by
  simpa [Runs, h] using hQ

theorem mono (h : m.Runs s Q E) (hQ : ∀ a t, Q a t → Q' a t) (hE : ∀ e t, E e t → E' e t) :
    m.Runs s Q' E' := by
  unfold Runs at h ⊢
  split at h
  · exact hQ _ _ h
  · exact hE _ _ h

theorem bind {f : α → Step β} {Q : β → State → Prop} (h : m.Runs s (fun a t => (f a).Runs t Q E) E) :
    (m >>= f).Runs s Q E := by
  change (Step.bind m f).Runs s Q E
  unfold Runs Step.bind
  unfold Runs at h
  split at h
  · rename_i hm
    rw [hm]
    exact h
  · rename_i hm
    rw [hm]
    exact h

/-- One step, and then what comes next wherever it may have led. -/
theorem next {f : α → Step β} {Q' : β → State → Prop} (h : m.Runs s Q E)
    (hf : ∀ a t, Q a t → (f a).Runs t Q' E') (hE : ∀ e t, E e t → E' e t := by exact fun _ _ he => he) :
    (m >>= f).Runs s Q' E' :=
  .bind (h.mono hf hE)

theorem pure (h : Q a s) : (Pure.pure a : Step α).Runs s Q E := h

theorem modify {f : State → State} {Q : Unit → State → Prop} (h : Q () (f s)) : (Step.modify f).Runs s Q E := h

theorem get {f : State → α} (h : Q (f s) s) : (Step.get f).Runs s Q E := h

theorem getFault {f : State → Except Fault α} (hf : f s = .ok a) (h : Q a s) :
    (Step.getFault f).Runs s Q E := by
  simpa [Runs, Step.getFault, hf] using h

theorem onArena {f : Arena → Except Fault (α × Arena)} {b : Arena} (hf : f s.arena = .ok (a, b))
    (h : Q a { s with arena := b }) : (Step.onArena f).Runs s Q E := by
  simpa [Runs, Step.onArena, hf] using h

theorem ensuring {last : Step Unit}
    (h : m.Runs s (fun a t => last.Runs t (fun _ u => Q a u) E) fun e t => last.Runs t (fun _ u => E e u) E) :
    (Step.ensuring m last).Runs s Q E := by
  unfold Runs at h
  unfold Runs Step.ensuring
  split at h
  all_goals
    rename_i hm
    rw [hm]
    split at h
    all_goals
      rename_i hl
      simpa [hl] using h

end Runs

/-- Run from `s`, the step gives an answer and a state as `Q` says, or it ends in a fault about a number
and leaves a state as `E` says. -/
abbrev Ends (m : Step α) (s : State) (Q : α → State → Prop) (E : State → Prop) : Prop :=
  m.Runs s Q fun e t => e.isNumeric ∧ E t

namespace Ends

variable {Q' : α → State → Prop} {E' : State → Prop}

theorem cases (h : m.Ends s Q E) :
    (∃ a t, m s = (.ok a, t) ∧ Q a t) ∨ ∃ e t, m s = (.error e, t) ∧ e.isNumeric ∧ E t := by
  unfold Ends Runs at h
  split at h
  · next a t hm => exact .inl ⟨a, t, hm, h⟩
  · next e t hm => exact .inr ⟨e, t, hm, h⟩

theorem mono (h : m.Ends s Q E) (hQ : ∀ a t, Q a t → Q' a t) (hE : ∀ t, E t → E' t) : m.Ends s Q' E' :=
  Runs.mono h hQ fun _ t he => ⟨he.1, hE t he.2⟩

theorem next {f : α → Step β} {Q' : β → State → Prop} (h : m.Ends s Q E)
    (hf : ∀ a t, Q a t → (f a).Ends t Q' E') (hE : ∀ t, E t → E' t := by exact fun _ he => he) :
    (m >>= f).Ends s Q' E' :=
  .bind (h.mono hf hE)

/-- Where no internal fault arises, none is caught. -/
theorem guarded {range : Range} {fallback : α} (h : m.Ends s Q E) :
    (Step.guarded range fallback m).Ends s Q E := by
  unfold Ends Runs at h
  unfold Ends Runs Step.guarded
  split at h
  · rename_i hm
    simpa [hm] using h
  · rename_i e t hm
    simpa [hm, Fault.isInternal_of_isNumeric h.1] using h

theorem ensuring {last : Step Unit}
    (h : m.Ends s (fun a t => last.Ends t (fun _ u => Q a u) E) fun t => last.Ends t (fun _ u => E u) E) :
    (Step.ensuring m last).Ends s Q E :=
  Runs.ensuring (Runs.mono h (fun _ _ hQ => hQ) fun _ _ he =>
    Runs.mono he.2 (fun _ _ hE => ⟨he.1, hE⟩) fun _ _ hE => hE)

end Ends

/-- The step works in the current scope, as `Φ` says. -/
def Acts (m : Step α) (Φ : Local → α → Local → Prop) : Prop :=
  ∀ s h sc, s.Working h sc → m.Ends s
    (fun a t => Undisturbed h s t ∧
      ∃ sc', t.arena.scope? h = some sc' ∧ Φ (s.localView sc) a (t.localView sc'))
    (fun t => t.stack = s.stack)

theorem Acts.mono {Ψ : Local → α → Local → Prop} (h : m.Acts Φ) (hΦ : ∀ l a l', Φ l a l' → Ψ l a l') :
    m.Acts Ψ := by
  intro s k sc w
  refine (h s k sc w).mono ?_ fun _ ht => ht
  rintro a t ⟨hu, sc', hsc, ha⟩
  exact ⟨hu, sc', hsc, hΦ _ _ _ ha⟩

theorem working_of_undisturbed {t : State} {sc' : Scope} (w : s.Working h sc) (hu : Undisturbed h s t)
    (hsc : t.arena.scope? h = some sc') : t.Working h sc' :=
  ⟨(State.currentHandle_congr hu.stack).trans w.handle, hsc, hu.placed⟩

theorem undisturbed_refl (w : s.Working h sc) : Undisturbed h s s :=
  ⟨rfl, fun _ _ => rfl, w.placed⟩

theorem Acts.pure (a : α) : (Pure.pure a : Step α).Acts fun l b l' => b = a ∧ l' = l := by
  intro s h sc w
  exact Runs.pure ⟨undisturbed_refl w, sc, w.scope, rfl, rfl⟩

theorem Acts.bind {f : α → Step β} {Ψ : α → Local → β → Local → Prop} (hm : m.Acts Φ)
    (hf : ∀ a, (f a).Acts (Ψ a)) : (m >>= f).Acts fun l b l' => ∃ a l₁, Φ l a l₁ ∧ Ψ a l₁ b l' := by
  intro s h sc w
  refine Ends.next (hm s h sc w) ?_
  rintro a t ⟨hu, sc₁, hsc₁, hΦ⟩
  refine (hf a t h sc₁ (working_of_undisturbed w hu hsc₁)).mono ?_ fun u he => he.trans hu.stack
  rintro b u ⟨hv, sc₂, hsc₂, hΨ⟩
  exact ⟨hu.trans hv, sc₂, hsc₂, a, _, hΦ, hΨ⟩

theorem Acts.guarded {range : Range} {fallback : α} (hm : m.Acts Φ) :
    (Step.guarded range fallback m).Acts Φ :=
  fun s h sc w => (hm s h sc w).guarded

/-- A change that concerns neither the scopes nor their stack. -/
structure RestOnly (g : State → State) : Prop where
  arena : ∀ s, (g s).arena = s.arena := by intro _; rfl
  stack : ∀ s, (g s).stack = s.stack := by intro _; rfl
  rest : ∀ s, (g s).rest = g s.rest := by intro _; rfl

theorem RestOnly.act (hg : RestOnly g) (w : s.Working h sc) :
    Undisturbed h s (g s) ∧ (g s).arena.scope? h = some sc ∧
      (g s).localView sc = { s.localView sc with rest := g s.rest } := by
  refine ⟨⟨hg.stack s, fun k _ => by rw [hg.arena], ?_⟩, by rw [hg.arena]; exact w.scope, ?_⟩
  · rw [hg.arena]
    exact w.placed
  · simp only [State.localView, hg.arena, hg.rest]

theorem Acts.modify (hg : RestOnly g) :
    (Step.modify g).Acts fun l _ l' => l' = { l with rest := g l.rest } := by
  intro s h sc w
  obtain ⟨hu, hsc, hl⟩ := hg.act w
  exact Runs.modify ⟨hu, sc, hsc, hl⟩

theorem Acts.ensuring (hm : m.Acts Φ) (hg : RestOnly g) : (Step.ensuring m (Step.modify g)).Acts fun l a l' =>
      ∃ l₁, Φ l a l₁ ∧ l' = { l₁ with rest := g l₁.rest } := by
  intro s h sc w
  apply Ends.ensuring
  refine (hm s h sc w).mono ?_ fun t ht => Runs.modify ((hg.stack t).trans ht)
  rintro a t ⟨hu, sc₁, hsc₁, hΦ⟩
  obtain ⟨hv, hsc₂, hl⟩ := hg.act (working_of_undisturbed w hu hsc₁)
  exact Runs.modify ⟨hu.trans hv, sc₁, hsc₂, _, hΦ, hl⟩

theorem Acts.get {f : State → α} (hf : ∀ s, f s.rest = f s) :
    (Step.get f).Acts fun l a l' => a = f l.rest ∧ l' = l := by
  intro s h sc w
  exact ⟨undisturbed_refl w, sc, w.scope, (hf s).symm, rfl⟩

theorem Acts.currentScope :
    (Step.getFault State.currentScope).Acts fun l a l' => a = l.scope ∧ l' = l := by
  intro s h sc w
  exact Runs.getFault (State.currentScope_eq w) ⟨undisturbed_refl w, sc, w.scope, rfl, rfl⟩

theorem ends_query {q : Query α} (hq : q.NumericFaults)
    (hQ : ∀ a k, (q s).1 = .ok a → Q a { s with sink := k }) (hE : ∀ k, E { s with sink := k }) :
    (Step.query q).Ends s Q E := by
  unfold Ends Runs
  rw [query_eq]
  cases hr : (q s).1 with
  | error e => exact ⟨hq s e hr, hE _⟩
  | ok a => exact hQ a _ hr

theorem Acts.query {q : Query α} (hq : q.NumericFaults) :
    (Step.query q).Acts fun l a l' => q.Answers l a ∧ l.SameButSink l' := by
  intro s h sc w
  apply ends_query hq
  · intro a k ha
    exact ⟨⟨rfl, fun _ _ => rfl, w.placed⟩, sc, w.scope, ⟨s, h, w, rfl, ha⟩, rfl, rfl, rfl⟩
  · intro k
    rfl

theorem put_act (w : s.Working h sc) (sc' : Scope) (hh : sc'.handle = sc.handle) (n : Nat) :
    Undisturbed h s { s with arena := { s.arena.put sc' with nextWrite := n } } ∧
      ({ s.arena.put sc' with nextWrite := n } : Arena).scope? h = some sc' := by
  have hput : ∀ k, ({ s.arena.put sc' with nextWrite := n } : Arena).scope? k =
      if k = h then some sc' else s.arena.scope? k :=
    Arena.scope?_put_of_scope? w.scope (hh.trans (w.placed h sc w.scope))
  exact ⟨⟨rfl, fun k hk => by rw [hput, if_neg hk], w.placed.put sc'⟩, by rw [hput, if_pos rfl]⟩

theorem Acts.updateVar (name : String) (f : Variable → Variable) :
    (Step.updateVar name f).Acts fun l _ l' => l' = { l with scope := l.scope.updateVar name f } := by
  intro s h sc w
  apply Runs.bind
  refine Runs.getFault w.handle ?_
  obtain ⟨hu, hsc⟩ := put_act w (sc.updateVar name f) rfl (s.arena.put (sc.updateVar name f)).nextWrite
  refine Runs.onArena (a := ()) (b := s.arena.put (sc.updateVar name f)) ?_ ⟨hu, _, hsc, ?_⟩
  · rw [Arena.updateVar_eq w.scope]
    rfl
  · simp [State.localView, State.rest]

theorem Acts.write (name : String) (type : TypeUnion) (value : Option Value) (range : Option Range) :
    (Step.write name type value range).Acts fun l _ l' =>
      l' = { l with
        scope := l.scope.updateVar name (·.write ⟨l.next, type, value, range⟩), next := l.next + 1 } := by
  intro s h sc w
  apply Runs.bind
  refine Runs.getFault w.handle ?_
  obtain ⟨hu, hsc⟩ := put_act w (sc.updateVar name (·.write ⟨s.arena.nextWrite, type, value, range⟩)) rfl
    (s.arena.nextWrite + 1)
  refine Runs.onArena (a := ()) ?_ ⟨hu, _, hsc, ?_⟩
  · rw [Arena.write_eq w.scope]
    rfl
  · simp [State.localView, State.rest]

theorem restOnly_enterLoop : RestOnly enterLoop := {}

theorem restOnly_leaveLoop : RestOnly leaveLoop := {}

theorem Acts.inLoop (hm : m.Acts Φ) :
    (Step.inLoop m).Acts fun l a l' =>
      ∃ l₁, Φ { l with rest := enterLoop l.rest } a l₁ ∧ l' = { l₁ with rest := leaveLoop l₁.rest } := by
  refine (Acts.bind (Acts.modify restOnly_enterLoop) fun _ => Acts.ensuring hm restOnly_leaveLoop).mono ?_
  rintro l a l' ⟨-, _, rfl, l₁, hΦ, rfl⟩
  exact ⟨l₁, hΦ, rfl⟩

-- From here on steps are known by the rules above and not run.
attribute [irreducible] Runs

end Step

/-- A relation between states that leads on from state to state, and holds where nothing has happened but that
issues were found. -/
class Onward (R : State → State → Prop) : Prop where
  trans : ∀ {s t u}, R s t → R t u → R s u
  sink : ∀ s k, R s { s with sink := k }

/-- However the step ends, it leads to a state that is related to where it started. -/
def Step.Shifts {α : Type} (m : Step α) (R : State → State → Prop) : Prop := ∀ s, R s (m s).2

namespace Step.Shifts

variable {α β : Type} {m : Step α} {R : State → State → Prop} [hR : Onward R]

/-- A step that changes nothing. -/
theorem still (hm : ∀ s, (m s).2 = s) : m.Shifts R := fun s => (hm s).symm ▸ hR.sink s s.sink

theorem pure (a : α) : (Pure.pure a : Step α).Shifts R := still fun _ => rfl

theorem get (f : State → α) : (Step.get f).Shifts R := still fun _ => rfl

theorem getFault (f : State → Except Fault α) : (Step.getFault f).Shifts R := still fun _ => rfl

theorem fail (e : Fault) : (Step.fail e : Step α).Shifts R := still fun _ => rfl

theorem query (q : Query α) : (Step.query q).Shifts R := fun s => by
  rw [query_eq]
  exact hR.sink s _

theorem bind {f : α → Step β} (hm : m.Shifts R) (hf : ∀ a, (f a).Shifts R) : (m >>= f).Shifts R := by
  intro s
  have hs := hm s
  rcases ht : m s with ⟨e | a, t⟩ <;> rw [ht] at hs
  · rwa [bind_eq_of_error ht]
  · rw [bind_eq_of_ok ht]
    exact hR.trans hs (hf a t)

theorem ensuring {last : Step Unit} (hm : m.Shifts R) (hlast : last.Shifts R) :
    (Step.ensuring m last).Shifts R := by
  intro s
  rw [ensuring_snd]
  exact hR.trans (hm s) (hlast _)

theorem guarded (hm : m.Shifts R) (r : Range) (fallback : α) : (Step.guarded r fallback m).Shifts R := by
  intro s
  have hs := hm s
  unfold Step.guarded
  rcases ht : m s with ⟨e | a, t⟩ <;> rw [ht] at hs
  · dsimp only
    split
    · exact hR.trans hs (hR.sink t _)
    · exact hs
  · exact hs

end Step.Shifts

/-- A relation between points of an analysis that leads on from point to point, and holds where nothing has
happened but that issues were found. -/
class Passage (R : Local → Local → Prop) : Prop where
  trans : ∀ {l m l'}, R l m → R m l' → R l l'
  sink : ∀ {l l'}, l.SameButSink l' → R l l'

abbrev Step.Passes {α : Type} (m : Step α) (R : Local → Local → Prop) : Prop := m.Acts fun l _ l' => R l l'

namespace Step.Passes

variable {α β : Type} {m : Step α} {R : Local → Local → Prop} {g : State → State}

theorem modify (hg : RestOnly g) (hR : ∀ l, R l { l with rest := g l.rest }) : (Step.modify g).Passes R := by
  refine (Acts.modify hg).mono ?_
  rintro l _ _ rfl
  exact hR l

theorem updateVar (name : String) (f : Variable → Variable)
    (hR : ∀ l, R l { l with scope := l.scope.updateVar name f }) : (Step.updateVar name f).Passes R := by
  refine (Acts.updateVar name f).mono ?_
  rintro l _ _ rfl
  exact hR l

variable [hR : Passage R]

theorem pure (a : α) : (Pure.pure a : Step α).Passes R := by
  refine (Acts.pure a).mono ?_
  rintro l _ _ ⟨-, rfl⟩
  exact hR.sink ⟨rfl, rfl, rfl⟩

theorem bind {f : α → Step β} (hm : m.Passes R) (hf : ∀ a, (f a).Passes R) : (m >>= f).Passes R := by
  refine (Acts.bind hm hf).mono ?_
  rintro l _ l' ⟨_, m, hlm, hml⟩
  exact hR.trans hlm hml

theorem get {f : State → α} (hf : ∀ s, f s.rest = f s) : (Step.get f).Passes R := by
  refine (Acts.get hf).mono ?_
  rintro l _ _ ⟨-, rfl⟩
  exact hR.sink ⟨rfl, rfl, rfl⟩

theorem currentScope : (Step.getFault State.currentScope).Passes R := by
  refine Acts.currentScope.mono ?_
  rintro l _ _ ⟨-, rfl⟩
  exact hR.sink ⟨rfl, rfl, rfl⟩

theorem query {q : Query α} (hq : q.NumericFaults) : (Step.query q).Passes R :=
  (Acts.query hq).mono fun _ _ _ hl => hR.sink hl.2

theorem report (kind : IssueKind) (message : String) (range : Option Range) :
    (Step.report kind message range).Passes R :=
  query (.report kind message range)

theorem ensuring (hm : m.Passes R) (hg : RestOnly g) (hlast : ∀ l, R l { l with rest := g l.rest }) :
    (Step.ensuring m (Step.modify g)).Passes R := by
  refine (Acts.ensuring hm hg).mono ?_
  rintro l _ _ ⟨m, hm, rfl⟩
  exact hR.trans hm (hlast m)

end Step.Passes

end PhpFlow
