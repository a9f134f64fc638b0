import PhpFlow.Proofs.Forking

/-!
# Steps that put everything back

Where a step is in the program is written on some stacks: the functions entered, the scopes entered in each,
the loops around, the class and the template names. A tidy step leaves all of that as it was, and the same
scopes are live after it. If none is entered in the current function, it may fail for want of a scope; then it
has changed nothing that counts.
-/
namespace PhpFlow

open List

structure Traversal where
  /-- The functions entered, innermost first, with the scopes entered in each. -/
  functions : List (Option QualifiedName × List Handle)
  file : Option QualifiedName × List Handle
  loopDepth : Nat
  currentClass : Option QualifiedName
  templates : List String

def Frame.place (f : Frame) : Option QualifiedName × List Handle := (f.name, f.scopes)

namespace State

def traversal (s : State) : Traversal :=
  ⟨s.frames.map Frame.place, s.fileFrame.place, s.loopDepth, s.currentClass, s.templates⟩

def ScopesLive (s : State) : Prop :=
  ∀ f ∈ s.fileFrame :: s.frames, ∀ h ∈ f.scopes, s.arena.isLive h

def HasScope (s : State) : Prop := s.currentFrame.scopes ≠ []

/-- The analysis is where it was, and what was reported is ordinary if there was a scope. -/
structure Restored (s t : State) : Prop where
  traversal : t.traversal = s.traversal
  reported : s.HasScope →
    ∃ found : List Issue, t.sink = found.foldl Sink.emit s.sink ∧ ∀ i ∈ found, i.IsOrdinary

/-- The scopes `ks` are new, and the others that are live were so before. -/
structure Carries (ks : List Handle) (s t : State) : Prop extends Restored s t where
  fresh : ∀ k ∈ ks, s.arena.isLive k = false
  live : ∀ h, t.arena.isLive h = true ↔ s.arena.isLive h = true ∨ h ∈ ks

def Aborted (s : State) (e : Fault) (t : State) : Prop := e.isNumeric ∧ s.Restored t

/-- How a step may fail: at a number, or for want of a scope if `bare` allows that. -/
def Failed (bare : Bool) (s : State) (e : Fault) (t : State) : Prop :=
  s.Aborted e t ∨ (bare ∧ e = .emptyScopeStack ∧ ¬ s.HasScope ∧ s.Carries [] t)

variable {s t u : State}
variable {e : Fault}

theorem currentFrame_scopes_eq (s : State) :
    s.currentFrame.scopes = (s.traversal.functions.head?.getD s.traversal.file).2 := by
  cases hf : s.frames <;> simp [currentFrame, traversal, Frame.place, hf]

theorem hasScope_congr (h : t.traversal = s.traversal) : t.HasScope ↔ s.HasScope := by
  simp only [HasScope, currentFrame_scopes_eq, h]

theorem scopesLive_iff (s : State) :
    s.ScopesLive ↔ ∀ p ∈ s.traversal.file :: s.traversal.functions, ∀ h ∈ p.2, s.arena.isLive h := by
  simp [ScopesLive, traversal, Frame.place]

theorem ScopesLive.congr (hs : s.ScopesLive) (h : t.traversal = s.traversal)
    (hlive : ∀ h, s.arena.isLive h → t.arena.isLive h) : t.ScopesLive := by
  rw [scopesLive_iff] at hs ⊢
  rw [h]
  exact fun p hp k hk => hlive k (hs p hp k hk)

theorem ScopesLive.current (hs : s.ScopesLive) {h : Handle} (hh : s.currentHandle = .ok h) :
    s.arena.isLive h := by
  have hmem : s.currentFrame ∈ s.fileFrame :: s.frames := by
    cases hf : s.frames <;> simp [currentFrame, hf]
  unfold currentHandle at hh
  split at hh
  · next k rest hk =>
    cases hh
    exact hs _ hmem h (by simp [hk])
  · cases hh

theorem HasScope.currentHandle (hs : s.HasScope) : ∃ h, s.currentHandle = .ok h := by
  obtain ⟨h, rest, hh⟩ := exists_cons_of_ne_nil hs
  exact ⟨h, by simp [State.currentHandle, hh]⟩

theorem currentHandle_of_not_hasScope (hs : ¬ s.HasScope) : s.currentHandle = .error .emptyScopeStack := by
  have hnil : s.currentFrame.scopes = [] := by simpa [HasScope] using hs
  simp [currentHandle, hnil]

theorem exists_scope {h : Handle} (hh : s.arena.isLive h) : ∃ sc, s.arena.scope? h = some sc :=
  Option.isSome_iff_exists.mp hh

theorem ScopesLive.currentScope (hs : s.ScopesLive) (hc : s.HasScope) : ∃ sc, s.currentScope = .ok sc := by
  obtain ⟨h, hh⟩ := hc.currentHandle
  obtain ⟨sc, hsc⟩ := exists_scope (hs.current hh)
  exact ⟨sc, by simp [State.currentScope, hh, Arena.get_of_scope? hsc, bind, Except.bind]⟩

namespace Restored

theorem refl (s : State) : s.Restored s := ⟨rfl, fun _ => ⟨[], rfl, by simp⟩⟩

theorem trans (h : s.Restored t) (h' : t.Restored u) : s.Restored u := by
  refine ⟨h'.traversal.trans h.traversal, fun hs => ?_⟩
  obtain ⟨found, hsink, hfound⟩ := h.reported hs
  obtain ⟨found', hsink', hfound'⟩ := h'.reported ((hasScope_congr h.traversal).mpr hs)
  refine ⟨found ++ found', by rw [hsink', hsink, foldl_append], ?_⟩
  intro i hi
  rcases mem_append.mp hi with hi | hi
  · exact hfound i hi
  · exact hfound' i hi

end Restored

namespace Carries

variable {ks js : List Handle}

/-- A change that concerns neither place nor issues nor the scopes that are live. -/
theorem of_eq (htraversal : t.traversal = s.traversal) (hsink : t.sink = s.sink)
    (hlive : ∀ h, t.arena.isLive h = s.arena.isLive h) : s.Carries [] t where
  traversal := htraversal
  reported _ := ⟨[], hsink, by simp⟩
  fresh := by simp
  live h := by simp [hlive]

theorem refl (s : State) : s.Carries [] s := of_eq rfl rfl fun _ => rfl

variable (h : s.Carries ks t)

include h

theorem trans (h' : t.Carries js u) : s.Carries (ks ++ js) u where
  toRestored := h.toRestored.trans h'.toRestored
  fresh := by
    intro k hk
    rcases mem_append.mp hk with hk | hk
    · exact h.fresh k hk
    · have hfresh := h'.fresh k hk
      have hlive := h.live k
      cases hs : s.arena.isLive k <;> simp_all
  live k := by rw [h'.live, h.live, mem_append, or_assoc]

theorem then_same (h' : t.Carries [] u) : s.Carries ks u := by
  simpa using h.trans h'

theorem scopesLive (hs : s.ScopesLive) : t.ScopesLive :=
  hs.congr h.traversal fun k hk => (h.live k).mpr (.inl hk)

theorem hasScope (hs : s.HasScope) : t.HasScope :=
  (hasScope_congr h.traversal).mpr hs

theorem isLive {k : Handle} (hk : s.arena.isLive k) : t.arena.isLive k :=
  (h.live k).mpr (.inl hk)

theorem isLive_new {k : Handle} (hk : k ∈ ks) : t.arena.isLive k :=
  (h.live k).mpr (.inr hk)

end Carries

theorem Aborted.after {ks : List Handle} (h : s.Carries ks t) (ha : t.Aborted e u) : s.Aborted e u :=
  ⟨ha.1, h.toRestored.trans ha.2⟩

theorem Failed.after {bare : Bool} (h : s.Carries [] t) (hf : t.Failed bare e u) : s.Failed bare e u := by
  rcases hf with ha | ⟨hb, he, ht, hc⟩
  · exact .inl (ha.after h)
  · exact .inr ⟨hb, he, fun hs => ht (h.hasScope hs), h.trans hc⟩

theorem Failed.wanting (hs : ¬ s.HasScope) : s.Failed true .emptyScopeStack s :=
  .inr ⟨rfl, rfl, hs, .refl s⟩

theorem Failed.aborted {bare : Bool} (hf : s.Failed bare e t) (hs : s.HasScope) : s.Aborted e t :=
  hf.resolve_right fun h => h.2.2.1 hs

end State

namespace Arena

theorem isLive_put (a : Arena) (sc : Scope) (h : Handle) : (a.put sc).isLive h = a.isLive h := by
  by_cases hlive : a.isLive sc.handle
  · by_cases hh : h = sc.handle
    · rw [hh, hlive]
      simp [isLive, scope?_put hlive]
    · simp [isLive, scope?_put hlive, hh]
  · simp [put, hlive]

theorem isLive_discard (a : Arena) (k h : Handle) :
    (a.discard k).isLive h = true ↔ a.isLive h = true ∧ h ≠ k := by
  rw [isLive, scope?_discard]
  by_cases hh : h = k <;> simp [hh, isLive]

theorem isLive_foldl_discard (ks : List Handle) (a : Arena) (h : Handle) :
    (ks.foldl discard a).isLive h = true ↔ a.isLive h = true ∧ h ∉ ks := by
  rw [isLive, scope?_foldl_discard]
  by_cases hh : h ∈ ks <;> simp [hh, isLive]

theorem isLive_add (a : Arena) (parent : Option Handle) (side : BranchSide) (vars : List Variable)
    (h : Handle) :
    (a.add parent side vars).2.isLive h = true ↔ a.isLive h = true ∨ h = (a.scopes.size : Nat) := by
  rw [isLive, scope?_add]
  by_cases hh : h = (a.scopes.size : Nat) <;> simp [hh, isLive]

theorem isLive_size (a : Arena) : a.isLive (a.scopes.size : Nat) = false := by
  simp [isLive, scope?_size]

end Arena

namespace Step

open State (Carries Failed Restored)

variable {α β : Type}

/-- The step puts everything back, and fails only at a number or, if `bare` allows that, for want of a
scope. -/
def Tidy (bare : Bool) (m : Step α) : Prop :=
  ∀ s, s.ScopesLive → m.Runs s (fun _ t => s.Carries [] t) (s.Failed bare)

/-- A change that concerns neither place nor issues nor scopes. -/
structure Aloof (g : State → State) : Prop where
  traversal : ∀ s, (g s).traversal = s.traversal := by exact fun _ => rfl
  sink : ∀ s, (g s).sink = s.sink := by exact fun _ => rfl
  arena : ∀ s, (g s).arena = s.arena := by exact fun _ => rfl

theorem Aloof.carries {g : State → State} (hg : Aloof g) (s : State) : s.Carries [] (g s) :=
  .of_eq (hg.traversal s) (hg.sink s) fun h => by rw [hg.arena]

namespace Tidy

variable {bare : Bool} {m : Step α}

/-- Where there is a scope, only a number ends the step. -/
theorem runs (hm : m.Tidy true) {s : State} (hs : s.ScopesLive) (hc : s.HasScope) :
    m.Runs s (fun _ t => s.Carries [] t) s.Aborted :=
  (hm s hs).mono (fun _ _ h => h) fun _ _ hf => hf.aborted hc

/-- A tidy step where there is a scope, and then something that may make new scopes. -/
theorem before {f : α → Step β} {K : β → List Handle} {s : State} (hm : m.Tidy true) (hs : s.ScopesLive)
    (hc : s.HasScope) (hf : ∀ a t, s.Carries [] t → (f a).Runs t (fun b u => t.Carries (K b) u) t.Aborted) :
    (m >>= f).Runs s (fun b u => s.Carries (K b) u) s.Aborted := by
  refine Runs.next (hm.runs hs hc) ?_
  intro a t hst
  exact (hf a t hst).mono (fun _ _ h => hst.trans h) fun _ _ h => h.after hst

theorem pure (a : α) : (Pure.pure a : Step α).Tidy bare := fun s _ => Runs.pure (Carries.refl s)

theorem bind {f : α → Step β} (hm : m.Tidy bare) (hf : ∀ a, (f a).Tidy bare) : (m >>= f).Tidy bare := by
  intro s hs
  refine Runs.next (hm s hs) ?_
  intro a t hst
  exact (hf a t (hst.scopesLive hs)).mono (fun _ _ h => hst.trans h) fun _ _ h => h.after hst

theorem get (f : State → α) : (Step.get f).Tidy bare := fun s _ => Runs.get (Carries.refl s)

theorem modify {g : State → State} (hg : Aloof g := by exact {}) : (Step.modify g).Tidy bare :=
  fun s _ => Runs.modify (hg.carries s)

/-- A query that ends in no fault but one about a number, and all of whose issues are ordinary. -/
theorem query_of_issues {q : Query α} (hfaults : q.NumericFaults)
    (hissues : ∀ s sc, s.currentScope = .ok sc → ∀ i ∈ (q s).2, i.IsOrdinary) :
    (Step.query q).Tidy bare := by
  intro s hs
  have hrestored : s.Restored { s with sink := (q s).2.foldl Sink.emit s.sink } := by
    refine ⟨rfl, fun hc => ⟨(q s).2, rfl, ?_⟩⟩
    obtain ⟨sc, hsc⟩ := hs.currentScope hc
    exact hissues s sc hsc
  unfold Runs
  rw [query_eq]
  cases hr : (q s).1 with
  | error e => exact .inl ⟨hfaults s e hr, hrestored⟩
  | ok a => exact { hrestored with fresh := by simp, live := by simp }

theorem query {q : Query α} (hq : q.Orderly) : (Step.query q).Tidy bare :=
  query_of_issues hq.faults hq.issues

theorem report {kind : IssueKind} (hkind : kind ≠ .internalError) (message : String)
    (range : Option Range) : (Step.report kind message range).Tidy bare := by
  refine query_of_issues (.report kind message range) fun s sc _ i hi => ?_
  obtain rfl := Query.eq_of_mem_report hi
  exact fun hk => absurd hk hkind

/-- A fault for want of a scope becomes an issue; that it is no ordinary one does not matter then. -/
theorem guarded (hm : m.Tidy true) (r : Range) (fallback : α) : (Step.guarded r fallback m).Tidy bare := by
  intro s hs
  have h := hm s hs
  unfold Runs at h
  unfold Runs Step.guarded
  rcases hrun : m s with ⟨e | a, t⟩
  · rw [hrun] at h
    rcases h with ha | ⟨-, rfl, hc, hst⟩
    · have hfailed : s.Failed bare e t := .inl ha
      simpa [Fault.isInternal_of_isNumeric ha.1] using hfailed
    · exact { hst with reported := fun hs => absurd hs hc }
  · rw [hrun] at h
    exact h

theorem andThen {a b : Step Bool} (ha : a.Tidy bare) (hb : b.Tidy bare) : (Step.andThen a b).Tidy bare := by
  refine .bind ha fun ok => ?_
  cases ok with
  | true => exact hb
  | false => exact .pure false

theorem thenContinue {a : Step Unit} (ha : a.Tidy bare) : (Step.thenContinue a).Tidy bare :=
  .bind ha fun _ => .pure true

theorem withCurrent {f : Handle → Step α} (hf : ∀ s h, s.ScopesLive → s.HasScope → s.arena.isLive h →
      (f h).Runs s (fun _ t => s.Carries [] t) s.Aborted) : (Step.currentHandle >>= f).Tidy true := by
  intro s hs
  apply Runs.bind
  by_cases hc : s.HasScope
  · obtain ⟨h, hh⟩ := hc.currentHandle
    refine Runs.getFault hh ?_
    exact (hf s h hs hc (hs.current hh)).mono (fun _ _ h => h) fun _ _ ha => .inl ha
  · have hh := State.currentHandle_of_not_hasScope hc
    simpa [Runs, Step.currentHandle, Step.getFault, hh] using Failed.wanting hc

theorem currentScope : (Step.getFault State.currentScope).Tidy true := by
  intro s hs
  by_cases hc : s.HasScope
  · obtain ⟨sc, hsc⟩ := hs.currentScope hc
    exact Runs.getFault hsc (Carries.refl s)
  · have hsc : s.currentScope = .error .emptyScopeStack := by
      simp [State.currentScope, State.currentHandle_of_not_hasScope hc, Bind.bind, Except.bind]
    simpa [Runs, Step.getFault, hsc] using Failed.wanting hc

theorem carries_put (s : State) (sc : Scope) (n : Nat) :
    s.Carries [] { s with arena := { s.arena.put sc with nextWrite := n } } :=
  .of_eq rfl rfl (Arena.isLive_put s.arena sc)

theorem updateVar (name : String) (f : Variable → Variable) : (Step.updateVar name f).Tidy true := by
  refine .withCurrent fun s h _ _ hh => ?_
  obtain ⟨sc, hsc⟩ := State.exists_scope hh
  refine Runs.onArena (a := ()) (b := s.arena.put (sc.updateVar name f)) ?_ ?_
  · rw [Arena.updateVar_eq hsc]
    rfl
  · exact carries_put s (sc.updateVar name f) _

theorem write (name : String) (type : TypeUnion) (value : Option Value) (range : Option Range) :
    (Step.write name type value range).Tidy true := by
  refine .withCurrent fun s h _ _ hh => ?_
  obtain ⟨sc, hsc⟩ := State.exists_scope hh
  let w : Write := ⟨s.arena.nextWrite, type, value, range⟩
  refine Runs.onArena (a := ()) ?_ (carries_put s (sc.updateVar name (·.write w)) (s.arena.nextWrite + 1))
  rw [Arena.write_eq hsc]
  rfl

end Tidy

section Forks

variable {s t : State} {p k : Handle} {ks : List Handle} {E : Fault → State → Prop}
variable {ms : List (Step Bool)}

def Forks (m : Step Handle) : Prop :=
  ∀ s, s.ScopesLive → s.HasScope → m.Runs s (fun k t => s.Carries [k] t) s.Aborted

theorem runs_branch (hp : s.arena.isLive p) (side : BranchSide) :
    (Step.branch p side).Runs s (fun k t => s.Carries [k] t) E := by
  obtain ⟨sc, hsc⟩ := State.exists_scope hp
  refine Runs.onArena (Arena.branch_eq hsc side) ?_
  exact { Restored.refl s with
    fresh := by simpa [Arena.add] using Arena.isLive_size s.arena
    live := by simpa [Arena.add] using Arena.isLive_add s.arena (some p) side sc.vars }

theorem forall₂_scope {a : Arena} (h : ∀ k ∈ ks, a.isLive k) :
    ∃ ss, List.Forall₂ (fun k sc => a.scope? k = some sc) ks ss := by
  induction ks with
  | nil => exact ⟨[], .nil⟩
  | cons k ks ih =>
    obtain ⟨ss, hss⟩ := ih fun j hj => h j (mem_cons_of_mem _ hj)
    obtain ⟨sc, hsc⟩ := Option.isSome_iff_exists.mp (h k mem_cons_self)
    exact ⟨sc :: ss, .cons hsc hss⟩

theorem runs_merge (hst : s.Carries ks t) (hp : s.arena.isLive p) :
    (Step.merge p ks).Runs t (fun _ u => s.Carries [] u) E := by
  obtain ⟨sc, hsc⟩ := State.exists_scope (hst.isLive hp)
  obtain ⟨ss, hss⟩ := forall₂_scope fun k hk => hst.isLive_new hk
  refine Runs.onArena (a := ()) (b := ks.foldl Arena.discard (t.arena.put (sc.merge ss))) ?_ ?_
  · rw [Arena.merge_eq hsc hss]
    rfl
  · refine { traversal := hst.traversal, reported := hst.reported, fresh := by simp, live := fun h => ?_ }
    have hfresh := hst.fresh h
    change (ks.foldl Arena.discard (t.arena.put (sc.merge ss))).isLive h = true ↔ _
    rw [Arena.isLive_foldl_discard, Arena.isLive_put, hst.live]
    by_cases hh : h ∈ ks <;> simp_all

theorem carries_discard {j : Handle} {u : State} (hst : s.Carries [k] t) (htu : t.Carries [j] u) :
    s.Carries [j] { u with arena := u.arena.discard k } := by
  have hsu := hst.trans htu
  have hjk : j ≠ k := by
    intro he
    have hfresh := htu.fresh j (by simp)
    simp [he, hst.isLive_new (mem_singleton.mpr rfl)] at hfresh
  refine { traversal := hsu.traversal, reported := hsu.reported, fresh := ?_, live := fun h => ?_ }
  · exact fun i hi => hsu.fresh i (by simp_all)
  · have hfresh := hst.fresh k (by simp)
    change (u.arena.discard k).isLive h = true ↔ _
    rw [Arena.isLive_discard, hsu.live]
    by_cases hh : h = k
    · subst hh
      simp [hfresh, hjk.symm]
    · simp [hh]

theorem leaveScope_eq (ht : t.traversal =
      (s.updateFrame fun f => { f with scopes := k :: f.scopes }).traversal) :
    Step.leaveScope k t = (.ok (), t.updateFrame fun f => { f with scopes := s.currentFrame.scopes }) ∧
      (t.updateFrame fun f => { f with scopes := s.currentFrame.scopes }).traversal = s.traversal := by
  have hscopes : t.currentFrame.scopes = k :: s.currentFrame.scopes := by
    rw [State.currentFrame_scopes_eq, ht, ← State.currentFrame_scopes_eq, State.stack_updateFrame_push]
  constructor
  · simp [Step.leaveScope, Step.popScope, hscopes, Bind.bind, Step.bind, Step.pure]
  · cases hs : s.frames with
    | nil =>
      cases htf : t.frames with
      | nil =>
        simp_all [State.traversal, State.updateFrame, State.currentFrame, Frame.place]
      | cons g gs => simp [State.traversal, State.updateFrame, hs, htf] at ht
    | cons f fs =>
      cases htf : t.frames with
      | nil => simp [State.traversal, State.updateFrame, hs, htf] at ht
      | cons g gs => simp_all [State.traversal, State.updateFrame, State.currentFrame, Frame.place]

theorem sink_updateFrame (s : State) (g : Frame → Frame) : (s.updateFrame g).sink = s.sink := by
  cases hf : s.frames <;> simp [State.updateFrame, hf]

theorem scopesLive_push (hs : s.ScopesLive) (hk : s.arena.isLive k) :
    (s.updateFrame fun f => { f with scopes := k :: f.scopes }).ScopesLive := by
  intro f hf h hh
  rw [State.arena_updateFrame]
  cases hframes : s.frames with
  | nil =>
    simp only [State.updateFrame, hframes, mem_cons, not_mem_nil, or_false] at hf
    subst hf
    rcases mem_cons.mp hh with rfl | hh
    · exact hk
    · exact hs s.fileFrame (by simp) h hh
  | cons g gs =>
    simp only [State.updateFrame, hframes, mem_cons] at hf
    rcases hf with rfl | rfl | hf
    · exact hs s.fileFrame (by simp) h hh
    · rcases mem_cons.mp hh with rfl | hh
      · exact hk
      · exact hs g (by simp [hframes]) h hh
    · exact hs f (by simp [hframes, hf]) h hh

/-- In a live scope that is entered and left the step has a scope, and only its own new scopes stay. -/
theorem runs_inScope {m : Step α} {K : α → List Handle} (hs : s.ScopesLive) (hk : s.arena.isLive k)
    (hm : ∀ s₁, s₁.ScopesLive → s₁.HasScope → s₁.arena = s.arena →
      m.Runs s₁ (fun a t => s₁.Carries (K a) t) s₁.Aborted) :
    (Step.inScope k m).Runs s (fun a t => s.Carries (K a) t) s.Aborted := by
  let s₁ := s.updateFrame fun f => { f with scopes := k :: f.scopes }
  let leave := fun t : State => t.updateFrame fun f => { f with scopes := s.currentFrame.scopes }
  have harena : s₁.arena = s.arena := State.arena_updateFrame s _
  have hsink : s₁.sink = s.sink := sink_updateFrame s _
  have hc : s₁.HasScope := by
    rw [State.HasScope, State.stack_updateFrame_push]
    simp
  have hrestored : ∀ t, s₁.Restored t → Step.leaveScope k t = (.ok (), leave t) ∧ s.Restored (leave t) := by
    intro t ht
    obtain ⟨hleave, htraversal⟩ := leaveScope_eq ht.traversal
    refine ⟨hleave, htraversal, fun _ => ?_⟩
    obtain ⟨found, hfound, hordinary⟩ := ht.reported hc
    exact ⟨found, by rw [sink_updateFrame, hfound, hsink], hordinary⟩
  apply Runs.bind
  refine Runs.modify ?_
  apply Runs.ensuring
  apply Runs.bind
  obtain ⟨sc, hsc⟩ := State.exists_scope (harena ▸ hk : s₁.arena.isLive k)
  refine Runs.getFault (Arena.get_of_scope? hsc) ?_
  refine (hm s₁ (scopesLive_push hs hk) hc harena).mono ?_ ?_
  · intro a t ht
    obtain ⟨hleave, hr⟩ := hrestored t ht.toRestored
    refine .of_eq hleave { hr with fresh := ?_, live := fun h => ?_ }
    · exact harena ▸ ht.fresh
    · rw [State.arena_updateFrame, ht.live, harena]
  · intro e t ht
    obtain ⟨hleave, hr⟩ := hrestored t ht.2
    exact .of_eq hleave ⟨ht.1, hr⟩

theorem runs_arm {arm : Step Bool} (harm : arm.Tidy true) (hs : s.ScopesLive) (hst : s.Carries ks t)
    (hk : k ∈ ks) : (Step.inScope k arm).Runs t (fun _ u => s.Carries ks u) s.Aborted :=
  (runs_inScope (K := fun _ => []) (hst.scopesLive hs) (hst.isLive_new hk)
    fun _ hs₁ hc₁ _ => harm.runs hs₁ hc₁).mono (fun _ _ h => hst.then_same h) fun _ _ h => h.after hst

/-- Work in two new scopes, which are merged afterwards. -/
theorem Tidy.fork {first : Step Handle} {second : Handle → Step Handle} {work : Handle → Handle → Step Bool}
    (hfirst : first.Forks) (hsecond : ∀ p s, s.arena.isLive p → s.ScopesLive → s.HasScope →
      (second p).Runs s (fun k t => s.Carries [k] t) s.Aborted)
    (hwork : ∀ {s t : State} {k₁ k₂}, s.ScopesLive → s.Carries [k₁, k₂] t →
      (work k₁ k₂).Runs t (fun _ u => s.Carries [k₁, k₂] u) s.Aborted) :
    (Step.fork first second work).Tidy true := by
  refine .withCurrent fun s p hs hc hp => ?_
  refine Runs.next (hfirst s hs hc) fun k₁ t₁ h₁ => ?_
  refine Runs.next (hsecond p t₁ (h₁.isLive hp) (h₁.scopesLive hs) (h₁.hasScope hc)) (fun k₂ t₂ h₂ => ?_)
    fun _ _ h => h.after h₁
  refine Runs.next (hwork hs (h₁.trans h₂ : s.Carries [k₁, k₂] t₂)) fun ok t₃ h₃ => ?_
  exact Runs.next (runs_merge h₃ hp) fun _ _ h => Runs.pure h

theorem Tidy.detour {makeBranch : Step Handle} {body : Step Bool} (hm : makeBranch.Forks)
    (hb : body.Tidy true) (side : BranchSide) : (Step.detour makeBranch side body).Tidy true :=
  .fork hm (fun _ _ hp _ _ => runs_branch hp side) fun hs hst => runs_arm hb hs hst (by simp)

/-- Two arms, of which the second is left alone if the first has to stop. -/
theorem Tidy.choice {c : Expr} {onTrue onFalse : Step Bool} (hc₁ : (c.branch .onTrue).Forks)
    (hc₂ : (c.branch .onFalse).Forks) (ht : onTrue.Tidy true) (hf : onFalse.Tidy true) :
    (Step.choice c onTrue onFalse).Tidy true := by
  refine .fork hc₁ (fun _ s _ => hc₂ s) fun hs hst => ?_
  refine Runs.next (runs_arm ht hs hst (by simp)) fun ok u hu => ?_
  cases ok with
  | true => exact runs_arm hf hs hu (by simp)
  | false => exact Runs.pure hu

theorem runs_analyzeArms (hms : ∀ m ∈ ms, m.Tidy true) (hs : s.ScopesLive) (hp : s.arena.isLive p)
    (hst : s.Carries ks t) : (analyzeArms p ms).Runs t (fun r u => s.Carries (ks ++ r.2) u) s.Aborted := by
  induction ms generalizing t ks with
  | nil => exact Runs.pure (by simpa using hst)
  | cons m ms ih =>
    have hm := hms m mem_cons_self
    apply Runs.bind
    apply Runs.bind
    refine (runs_branch (hst.isLive hp) .neutral).mono ?_ fun _ _ h => h
    intro k t₁ h₁
    have hk : s.Carries (ks ++ [k]) t₁ := hst.trans h₁
    refine Runs.next (runs_inScope (K := fun _ => []) (hk.scopesLive hs) (hk.isLive_new (by simp))
      fun s₁ hs₁ hc₁ _ => hm.runs hs₁ hc₁) ?_ fun _ _ h => h.after hk
    intro ok t₂ h₂
    refine Runs.pure ?_
    cases ok with
    | false => exact Runs.pure (hk.then_same h₂)
    | true =>
      refine Runs.next (ih (fun m hm => hms m (mem_cons_of_mem _ hm)) (hk.then_same h₂)) ?_
      rintro ⟨ok, hs⟩ u hu
      exact Runs.pure (by simpa using hu)

theorem Tidy.switchArms (hms : ∀ m ∈ ms, m.Tidy true) (hasDefault : Bool) :
    (PhpFlow.switchArms hasDefault ms).Tidy true := by
  refine .withCurrent fun s p hs hc hp => ?_
  refine Runs.next (runs_analyzeArms hms hs hp (Carries.refl s)) ?_
  rintro ⟨ok, ks⟩ t hst
  have hmerge : ∀ (js : List Handle) {u : State}, s.Carries (ks ++ js) u →
      (do Step.merge p (ks ++ js); return ok : Step Bool).Runs u (fun _ v => s.Carries [] v) s.Aborted := by
    intro js u hu
    apply Runs.bind
    exact (runs_merge hu hp).mono (fun _ _ h => Runs.pure h) fun _ _ h => h
  cases hasDefault with
  | true => exact hmerge [] (by simpa using hst)
  | false =>
    refine Runs.next (runs_branch (hst.isLive hp) .neutral) ?_
    intro k u hu
    exact hmerge [k] (hst.trans hu)

end Forks

section Brackets

variable {m : Step α} {bare : Bool}

/-- Something is changed while a step runs and changed back afterwards. -/
structure Brackets (enter leave : State → State) (s : State) : Prop where
  frames : (enter s).frames = s.frames
  fileFrame : (enter s).fileFrame = s.fileFrame
  arena : (enter s).arena = s.arena
  sink : (enter s).sink = s.sink
  back : ∀ t, t.traversal = (enter s).traversal → (leave t).traversal = s.traversal
  keepsArena : ∀ t, (leave t).arena = t.arena
  keepsSink : ∀ t, (leave t).sink = t.sink

theorem Tidy.bracket (hm : m.Tidy bare) {enter leave : State → State} {s : State} (hs : s.ScopesLive)
    (hb : Brackets enter leave s) :
    (do Step.modify enter; Step.ensuring m (Step.modify leave) : Step α).Runs s
      (fun _ t => s.Carries [] t) (s.Failed bare) := by
  have hc : (enter s).HasScope ↔ s.HasScope := by
    simp only [State.HasScope, State.currentFrame, hb.frames, hb.fileFrame]
  have hs₁ : (enter s).ScopesLive := by
    intro f hf h hh
    rw [hb.frames, hb.fileFrame] at hf
    rw [hb.arena]
    exact hs f hf h hh
  have hrestored : ∀ t, (enter s).Restored t → s.Restored (leave t) := by
    intro t ht
    refine ⟨hb.back t ht.traversal, fun h => ?_⟩
    obtain ⟨found, hfound, hordinary⟩ := ht.reported (hc.mpr h)
    exact ⟨found, by rw [hb.keepsSink, hfound, hb.sink], hordinary⟩
  have hcarries : ∀ t, (enter s).Carries [] t → s.Carries [] (leave t) := by
    intro t ht
    refine { hrestored t ht.toRestored with fresh := by simp, live := fun h => ?_ }
    rw [hb.keepsArena, ht.live, hb.arena]
  apply Runs.bind
  refine Runs.modify ?_
  apply Runs.ensuring
  refine (hm (enter s) hs₁).mono (fun _ t ht => Runs.modify (hcarries t ht)) ?_
  rintro e t (ha | ⟨hbare, he, hn, ht⟩)
  · exact Runs.modify (.inl ⟨ha.1, hrestored t ha.2⟩)
  · exact Runs.modify (.inr ⟨hbare, he, fun h => hn (hc.mpr h), hcarries t ht⟩)

theorem Tidy.inLoop (hm : m.Tidy bare) : (Step.inLoop m).Tidy bare := by
  intro s hs
  refine hm.bracket hs ⟨rfl, rfl, rfl, rfl, ?_, fun _ => rfl, fun _ => rfl⟩
  intro t ht
  simp_all [State.traversal, enterLoop, leaveLoop]

theorem Tidy.withTemplates (names : List String) (hm : m.Tidy bare) :
    (PhpFlow.withTemplates names m).Tidy bare := by
  intro s hs
  apply Runs.bind
  refine Runs.get (hm.bracket hs ⟨rfl, rfl, rfl, rfl, ?_, fun _ => rfl, fun _ => rfl⟩)
  intro t ht
  simp_all [State.traversal]

theorem Tidy.inClass (name : QualifiedName) (hm : m.Tidy bare) : (PhpFlow.inClass name m).Tidy bare := by
  intro s hs
  apply Runs.bind
  refine Runs.get (hm.bracket hs ⟨rfl, rfl, rfl, rfl, ?_, fun _ => rfl, fun _ => rfl⟩)
  intro t ht
  simp_all [State.traversal]

variable (name : Option QualifiedName)

theorem Tidy.ensuring (hm : m.Tidy bare) {g : State → State} (hg : Aloof g) :
    (Step.ensuring m (Step.modify g)).Tidy bare := by
  intro s hs
  apply Runs.ensuring
  refine (hm s hs).mono (fun _ t ht => Runs.modify (ht.trans (hg.carries t))) ?_
  rintro e t (ha | ⟨hbare, he, hn, ht⟩)
  · exact Runs.modify (.inl ⟨ha.1, ha.2.trans (hg.carries t).toRestored⟩)
  · exact Runs.modify (.inr ⟨hbare, he, hn, ht.trans (hg.carries t)⟩)

theorem isLive_enterFrame (s : State) (h : Handle) :
    (enterFrame name s).arena.isLive h = true ↔
      s.arena.isLive h = true ∨ h = (s.arena.scopes.size : Nat) :=
  Arena.isLive_add s.arena none .neutral [] h

theorem hasScope_enterFrame (s : State) : (enterFrame name s).HasScope := by
  simp [State.HasScope, State.currentFrame, enterFrame]

theorem scopesLive_enterFrame {s : State} (hs : s.ScopesLive) : (enterFrame name s).ScopesLive := by
  intro f hf h hh
  rw [isLive_enterFrame]
  rcases mem_cons.mp hf with rfl | hf
  · exact .inl (hs _ mem_cons_self h hh)
  · rcases mem_cons.mp hf with rfl | hf
    · exact .inr (by simpa [Arena.newRoot, Arena.add] using hh)
    · exact .inl (hs f (mem_cons_of_mem _ hf) h hh)

/-- A function is analysed with a scope of its own, which is gone afterwards. -/
theorem Tidy.inFrame (hm : m.Tidy true) : (Step.inFrame name m).Tidy bare := by
  intro s hs
  let s₁ := enterFrame name s
  let root : Handle := (s.arena.scopes.size : Nat)
  have hlive₁ : ∀ h, s₁.arena.isLive h = true ↔ s.arena.isLive h = true ∨ h = root :=
    isLive_enterFrame name s
  have hc₁ : s₁.HasScope := hasScope_enterFrame name s
  have hs₁ : s₁.ScopesLive := scopesLive_enterFrame name hs
  -- The frame on top is the one that was entered, so leaving it discards its root and nothing else.
  have hleave : ∀ t, s₁.Restored t → s.Restored (leaveFrame s.loopDepth t) ∧
      (leaveFrame s.loopDepth t).arena = t.arena.discard root := by
    intro t ht
    have htraversal := ht.traversal
    cases hf : t.frames with
    | nil => simp [s₁, State.traversal, enterFrame, hf] at htraversal
    | cons f fs =>
      have hscopes : f.scopes = [root] := by
        simp_all [s₁, root, State.traversal, enterFrame, Frame.place, Arena.newRoot, Arena.add]
      refine ⟨⟨?_, fun _ => ?_⟩, by simp [leaveFrame, hf, hscopes]⟩
      · simp_all [s₁, State.traversal, enterFrame, leaveFrame, Frame.place]
      · obtain ⟨found, hfound, hordinary⟩ := ht.reported hc₁
        exact ⟨found, by simpa [s₁, enterFrame, leaveFrame, hf] using hfound, hordinary⟩
  apply Runs.bind
  refine Runs.get ?_
  apply Runs.bind
  refine Runs.modify ?_
  apply Runs.ensuring
  refine Runs.next (hm.runs hs₁ hc₁) (fun a t ht => ?_)
    fun e t ha => Runs.modify (.inl ⟨ha.1, (hleave t ha.2).1⟩)
  apply Runs.bind
  refine Runs.get (Runs.pure (Runs.modify ?_))
  obtain ⟨hrestored, harena⟩ := hleave t ht.toRestored
  refine { hrestored with fresh := by simp, live := fun h => ?_ }
  have hroot : s.arena.isLive root = false := Arena.isLive_size s.arena
  rw [harena, Arena.isLive_discard, ht.live, hlive₁]
  by_cases hh : h = root <;> simp_all

end Brackets

end Step

end PhpFlow
