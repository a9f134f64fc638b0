import PhpFlow.Proofs.Branching

/-!
# Functions within code

A function is analysed in a scope of its own, which is gone when the function is left. The code around it
finds its own scope as it was; only the numbers of writes have gone on.
-/
namespace PhpFlow

def Scope.root (h : Handle) : Scope := ⟨h, none, .neutral, []⟩

/-- What is left of a state without scopes when a function is entered. -/
def State.within (s : State) (name : Option QualifiedName) : State :=
  { s with frames := ⟨name, [], []⟩ :: s.frames, loopDepth := 0 }

def State.outside (s : State) (loopDepth : Nat) : State := { s with frames := s.frames.tail, loopDepth }

theorem State.returns_currentFrame_rest (s : State) :
    s.rest.currentFrame.returns = s.currentFrame.returns := by
  cases hf : s.frames <;> simp [State.rest, State.currentFrame, hf]

namespace Step

variable {α : Type}

/-- A function is entered, its code is run, and it is left, however that ends. -/
theorem inFrame_apply (name : Option QualifiedName) (m : Step α) (s : State) :
    inFrame name m s = ((m (enterFrame name s)).1.map fun a => (a, (m (enterFrame name s)).2.currentFrame),
      leaveFrame s.loopDepth (m (enterFrame name s)).2) := by
  rcases h : m (enterFrame name s) with ⟨e | a, t⟩ <;>
    simp [inFrame, Bind.bind, Step.bind, Step.get, Step.modify, Step.ensuring, Pure.pure, Step.pure, h,
      Except.map]

section Entering

variable (name : Option QualifiedName) (s : State)

theorem scope?_enterFrame (h : Handle) : (enterFrame name s).arena.scope? h =
    if h = (s.arena.scopes.size : Nat) then some (.root (s.arena.scopes.size : Nat))
    else s.arena.scope? h :=
  Arena.scope?_add s.arena none .neutral [] h

theorem working_enterFrame (hp : s.arena.Placed) :
    (enterFrame name s).Working (s.arena.scopes.size : Nat) (.root (s.arena.scopes.size : Nat)) :=
  ⟨rfl, by simp [scope?_enterFrame], hp.add none .neutral []⟩

/-- Leaving the function again, after something that has put back the stack of scopes. -/
theorem leaveFrame_eq {t : State} (ht : t.stack = (enterFrame name s).stack) (depth : Nat) :
    (leaveFrame depth t).stack = s.stack ∧
      (leaveFrame depth t).arena = t.arena.discard (s.arena.scopes.size : Nat) ∧
      (leaveFrame depth t).rest = t.rest.outside depth := by
  have hstack : t.stack = ([(s.arena.scopes.size : Handle)] :: s.stack.1, s.stack.2) := ht
  cases hf : t.frames with
  | nil => simp [State.stack, hf] at hstack
  | cons f fs =>
    simp only [State.stack, hf, List.map_cons, Prod.mk.injEq, List.cons.injEq] at hstack
    obtain ⟨⟨hscopes, hfs⟩, hfile⟩ := hstack
    refine ⟨?_, ?_, ?_⟩
    · simp [leaveFrame, hf, State.stack, hfs, hfile]
    · simp [leaveFrame, hf, hscopes]
    · simp [leaveFrame, hf, State.rest, State.outside]

end Entering

/-- A function may do what it likes in its own scope. -/
theorem Acts.inFrame {m : Step α} {Φ : Local → α → Local → Prop} (hm : m.Acts Φ)
    (name : Option QualifiedName) :
    (Step.inFrame name m).Acts fun l a l' => ∃ h m',
      Φ ⟨.root h, l.next, l.rest.within name⟩ a.1 m' ∧ a.2.returns = m'.rest.currentFrame.returns ∧
        l' = ⟨l.scope, m'.next, m'.rest.outside l.rest.loopDepth⟩ := by
  intro s h sc w
  have hne : h ≠ (s.arena.scopes.size : Nat) := by
    intro he
    have hsize := Arena.scope?_size s.arena
    rw [← he, w.scope] at hsize
    cases hsize
  apply Runs.bind
  refine Runs.get ?_
  apply Runs.bind
  refine Runs.modify ?_
  apply Ends.ensuring
  apply Runs.bind
  refine (hm _ _ _ (working_enterFrame name s w.placed)).mono ?_
    fun t ht => Runs.modify (leaveFrame_eq name s ht s.loopDepth).1
  rintro a t ⟨hu, sc', hsc', hΦ⟩
  apply Runs.bind
  refine Runs.get ?_
  refine Runs.pure (Runs.modify ?_)
  obtain ⟨hstack, harena, hrest⟩ := leaveFrame_eq name s hu.stack s.loopDepth
  have hscope : ∀ k, (leaveFrame s.loopDepth t).arena.scope? k = s.arena.scope? k := by
    intro k
    rw [harena, Arena.scope?_discard]
    split
    · next hk =>
      rw [hk]
      exact (Arena.scope?_size s.arena).symm
    · next hk => rw [hu.others k hk, scope?_enterFrame, if_neg hk]
  refine ⟨⟨hstack, fun k _ => hscope k, fun k r hr => ?_⟩, sc, (hscope h).trans w.scope, _, _, hΦ,
    t.returns_currentFrame_rest.symm, ?_⟩
  · rw [hscope] at hr
    exact w.placed k r hr
  · simp only [State.localView, harena, hrest, Arena.nextWrite_discard]
    rfl

end Step

theorem restOnly_addReturn (type : TypeUnion) (value : Option Value) : Step.RestOnly fun s =>
    s.updateFrame fun f => { f with returns := f.returns ++ [(type, value)] } := by
  refine ⟨fun s => State.arena_updateFrame s _, fun s => ?_, fun s => ?_⟩
  all_goals cases hf : s.frames <;> simp [State.updateFrame, State.stack, State.rest, hf]

section Running

def Function.run (f : Function) (body : Step Bool) : Step Handle := do
  let root ← Step.currentHandle
  bindParameters f.docComment? f.parameters
  match f.docComment?.bind (·.returns?) with
  | none => pure ()
  | some (text, range) => do
    let _ ← readDocType text range
  let _ ← body
  return root

def State.unusedIssue (s : State) (v : Variable) : Issue :=
  ⟨.unusedVariable, "Variable $" ++ v.name ++ " is assigned but never read",
    (v.history.head?.bind (·.range)).map s.position⟩

def State.unusedIssues (s : State) (sc : Scope) : List Issue :=
  if s.config.reportUnused then (sc.vars.filter Variable.isUnused).map s.unusedIssue else []

theorem reportUnusedAll_eq (vs : List Variable) (s : State) :
    reportUnusedAll vs s = (.ok (), ((vs.filter Variable.isUnused).map s.unusedIssue).foldl Step.emit s) := by
  induction vs generalizing s with
  | nil => rfl
  | cons v vs ih =>
    rw [reportUnusedAll]
    by_cases hv : v.isUnused = true
    · rw [if_pos hv, List.filter_cons_of_pos hv, List.map_cons, List.foldl_cons]
      exact ih (Step.emit s (s.unusedIssue v))
    · rw [if_neg hv, List.filter_cons_of_neg hv]
      exact ih s

theorem reportUnused_eq {s : State} {h : Handle} {sc : Scope} (hsc : s.arena.scope? h = some sc) :
    reportUnused h s = (.ok (), (s.unusedIssues sc).foldl Step.emit s) := by
  unfold State.unusedIssues
  have hget : s.arena.get h = .ok sc := Arena.get_of_scope? hsc
  cases hon : s.config.reportUnused with
  | false => simp [reportUnused, Bind.bind, Step.bind, Step.get, hon, Pure.pure, Step.pure]
  | true => simp [reportUnused, Bind.bind, Step.bind, Step.get, Step.getFault, hon, hget, reportUnusedAll_eq]

theorem Function.infer_eq (f : Function) (name : QualifiedName) (body : Step Bool) :
    f.infer name body = (do
      let (_, frame) ← withTemplates ((f.docComment?.map (·.templates)).getD [])
        (Step.inFrame (some name) (f.run body >>= reportUnused))
      return frame.returnType.getD (.prim .void)) := by
  have hinner : (f.run body >>= reportUnused) = (do
      let root ← Step.currentHandle
      bindParameters f.docComment? f.parameters
      match f.docComment?.bind (·.returns?) with
      | none => pure ()
      | some (text, range) => do
        let _ ← readDocType text range
      let _ ← body
      reportUnused root) := by
    unfold Function.run
    rw [Step.bind_assoc]
    congr 1
    funext root
    rw [Step.bind_assoc]
    congr 1
    funext _
    split
    · exact Step.bind_assoc _ _ _
    · exact (Step.bind_assoc _ _ _).trans (congrArg _ (funext fun _ => Step.bind_assoc _ _ _))
  rw [hinner]
  rfl

variable (f : Function) {R D : Local → Local → Prop} {Φ : Local → Bool → Local → Prop} {body : Step Bool}
  (hparams : (bindParameters f.docComment? f.parameters).Acts fun l _ l' => R l l')
  (hdoc : ∀ text range, (readDocType text range).Acts fun l _ l' => D l l')
  (hafter : ∀ {l m l'}, R l m → D m l' → R l l') (hbody : body.Acts Φ)

include hparams hdoc hafter hbody

/-- A function with its parameters and its body; `h` is the handle of its scope. -/
theorem Function.ends_run {s : State} {h : Handle} {sc : Scope} (w : s.Working h sc) :
    (f.run body).Ends s
      (fun root t => root = h ∧ Undisturbed h s t ∧ ∃ sc', t.arena.scope? h = some sc' ∧
        ∃ m ok, R (s.localView sc) m ∧ Φ m ok (t.localView sc')) (fun t => t.stack = s.stack) := by
  have hlast : (do let _ ← body; return h : Step Handle).Acts fun l a l' => a = h ∧ ∃ ok, Φ l ok l' := by
    refine (Step.Acts.bind hbody fun _ => Step.Acts.pure h).mono ?_
    rintro l a l' ⟨ok, l₁, h₁, rfl, rfl⟩
    exact ⟨rfl, ok, h₁⟩
  apply Step.Runs.bind
  refine Step.Runs.getFault w.handle ?_
  have hrest : ∀ {m : Step Handle}, (m.Acts fun l a l' => a = h ∧ ∃ m ok, R l m ∧ Φ m ok l') →
      m.Ends s (fun root t => root = h ∧ Undisturbed h s t ∧ ∃ sc', t.arena.scope? h = some sc' ∧
        ∃ m ok, R (s.localView sc) m ∧ Φ m ok (t.localView sc')) (fun t => t.stack = s.stack) := by
    intro m hm
    refine (hm s h sc w).mono ?_ fun _ ht => ht
    rintro a t ⟨hu, sc', hsc', ha, hran⟩
    exact ⟨ha, hu, sc', hsc', hran⟩
  apply hrest
  cases f.docComment?.bind (·.returns?) with
  | none =>
    refine (Step.Acts.bind hparams fun _ => hlast).mono ?_
    rintro l a l' ⟨_, m, h₁, ha, ok, h₂⟩
    exact ⟨ha, m, ok, h₁, h₂⟩
  | some tag =>
    refine (Step.Acts.bind hparams fun _ => Step.Acts.bind (hdoc tag.1 tag.2) fun _ => hlast).mono ?_
    rintro l a l' ⟨_, m, h₁, _, m', h₂, ha, ok, h₃⟩
    exact ⟨ha, m', ok, hafter h₁ h₂, h₃⟩

/-- Then the variables of this scope are reported on. -/
theorem Function.acts_run :
    (f.run body >>= reportUnused).Acts fun l _ l' => ∃ m ok n, R l m ∧ Φ m ok n ∧ n.SameButSink l' := by
  intro s h sc w
  refine Step.Ends.next (f.ends_run hparams hdoc hafter hbody w) ?_
  rintro _ t ⟨rfl, hu, sc', hsc', m, ok, hm, hok⟩
  refine Step.Runs.of_eq ((reportUnused_eq hsc').trans (congrArg _ (Step.foldl_emit _ t))) ?_
  exact ⟨⟨hu.stack, hu.others, hu.placed⟩, sc', hsc', m, ok, _, hm, hok, rfl, rfl, rfl⟩

end Running

end PhpFlow
