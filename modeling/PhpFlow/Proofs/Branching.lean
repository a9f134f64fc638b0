import PhpFlow.Flow.Statement
import PhpFlow.Proofs.Locality

/-!
# Branching and merging

A construct with several arms makes a branch of the current scope for each of them, works in one branch
after the other, and merges them all. Between these steps the branches are the only scopes besides those
there were before, and the current scope waits unchanged.
-/
namespace PhpFlow

open List

/-- The scope `k` has been made; nothing else has changed but the issues found. -/
structure Opened (k : Handle) (s t : State) : Prop where
  stack : t.stack = s.stack
  fresh : s.arena.scope? k = none
  others : ∀ j, j ≠ k → t.arena.scope? j = s.arena.scope? j
  placed : t.arena.Placed
  next : t.arena.nextWrite = s.arena.nextWrite
  rest : t.rest = { s.rest with sink := t.sink }

/-- Since `s` the scopes `ks` have been made and are now `arms`; no other scope has changed. -/
structure Forked (ks : List Handle) (arms : List Scope) (s t : State) : Prop where
  stack : t.stack = s.stack
  nodup : ks.Nodup
  arms : List.Forall₂ (fun k arm => t.arena.scope? k = some arm) ks arms
  fresh : ∀ k ∈ ks, s.arena.scope? k = none
  others : ∀ j, j ∉ ks → t.arena.scope? j = s.arena.scope? j
  placed : t.arena.Placed

namespace Forked

variable {s t u : State} {ks : List Handle} {arms : List Scope} {k : Handle} {arm : Scope}

theorem none (hp : s.arena.Placed) : Forked [] [] s s :=
  ⟨rfl, .nil, .nil, by simp, fun _ _ => rfl, hp⟩

/-- A scope from before the fork is still what it was. -/
theorem scope? (f : Forked ks arms s t) {h : Handle} {sc : Scope} (hs : s.arena.scope? h = some sc) :
    h ∉ ks ∧ t.arena.scope? h = some sc := by
  have hk : h ∉ ks := by
    intro hk
    rw [f.fresh h hk] at hs
    cases hs
  exact ⟨hk, (f.others h hk).trans hs⟩

theorem working (f : Forked ks arms s t) {h : Handle} {sc : Scope} (w : s.Working h sc) : t.Working h sc :=
  ⟨(State.currentHandle_congr f.stack).trans w.handle, (f.scope? w.scope).2, f.placed⟩

theorem live_of_mem (h : List.Forall₂ (fun k arm => t.arena.scope? k = some arm) ks arms) (hk : k ∈ ks) :
    t.arena.scope? k ≠ .none := by
  induction h with
  | nil => cases hk
  | cons hd _ ih =>
    rcases mem_cons.mp hk with rfl | hk
    · simp [hd]
    · exact ih hk

/-- What holds of some scopes holds as long as they stay what they are. -/
theorem arms_congr (h : List.Forall₂ (fun k arm => t.arena.scope? k = some arm) ks arms)
    (hkeep : ∀ k ∈ ks, u.arena.scope? k = t.arena.scope? k) :
    List.Forall₂ (fun k arm => u.arena.scope? k = some arm) ks arms := by
  induction h with
  | nil => exact .nil
  | cons hd _ ih =>
    refine .cons ?_ (ih fun k hk => hkeep k (mem_cons_of_mem _ hk))
    rw [hkeep _ mem_cons_self, hd]

theorem opened (f : Forked ks arms s t) (o : Opened k t u) (hk : u.arena.scope? k = some arm) :
    Forked (ks ++ [k]) (arms ++ [arm]) s u := by
  have hnew : k ∉ ks := fun hm => live_of_mem f.arms hm o.fresh
  refine ⟨o.stack.trans f.stack, ?_, ?_, ?_, ?_, o.placed⟩
  · rw [nodup_append]
    refine ⟨f.nodup, by simp, ?_⟩
    intro j hj j' hj' he
    exact hnew (mem_singleton.mp hj' ▸ he ▸ hj)
  · refine rel_append (R := fun k arm => u.arena.scope? k = some arm) ?_ (.cons hk .nil)
    exact arms_congr f.arms fun j hj => o.others j fun he => hnew (he ▸ hj)
  · intro j hj
    rcases mem_append.mp hj with hj | hj
    · exact f.fresh j hj
    · obtain rfl : j = k := by simpa using hj
      rw [← f.others j hnew]
      exact o.fresh
  · intro j hj
    rw [mem_append, not_or, mem_singleton] at hj
    rw [o.others j hj.2, f.others j hj.1]

/-- A scope among others is replaced, and the others stay what they are. -/
theorem arms_replace {ks₁ ks₂ : List Handle} {arms₁ arms₂ : List Scope} {arm' : Scope}
    (h : List.Forall₂ (fun k arm => t.arena.scope? k = some arm) (ks₁ ++ k :: ks₂)
      (arms₁ ++ arm :: arms₂)) (hlen : ks₁.length = arms₁.length)
    (hkeep : ∀ j ∈ ks₁ ++ ks₂, u.arena.scope? j = t.arena.scope? j) (hk : u.arena.scope? k = some arm') :
    List.Forall₂ (fun k arm => u.arena.scope? k = some arm) (ks₁ ++ k :: ks₂) (arms₁ ++ arm' :: arms₂) := by
  induction ks₁ generalizing arms₁ with
  | nil =>
    obtain rfl : arms₁ = [] := length_eq_zero_iff.mp hlen.symm
    cases h with
    | cons _ htail => exact .cons hk (arms_congr htail hkeep)
  | cons j js ih =>
    cases arms₁ with
    | nil => simp at hlen
    | cons a as =>
      cases h with
      | cons hd htail =>
        refine .cons ((hkeep j (by simp)).trans hd) (ih htail (Nat.succ.inj hlen) ?_)
        intro i hi
        exact hkeep i (mem_cons_of_mem _ hi)

theorem worked (ks₁ : List Handle) (arms₁ : List Scope) {ks₂ : List Handle} {arms₂ : List Scope}
    {arm' : Scope} (f : Forked (ks₁ ++ k :: ks₂) (arms₁ ++ arm :: arms₂) s t)
    (hlen : ks₁.length = arms₁.length) (hu : Undisturbed k t u) (hk : u.arena.scope? k = some arm') :
    Forked (ks₁ ++ k :: ks₂) (arms₁ ++ arm' :: arms₂) s u := by
  obtain ⟨-, hcons, hdisj⟩ := nodup_append.mp f.nodup
  have hne : ∀ j ∈ ks₁ ++ ks₂, j ≠ k := by
    intro j hj he
    subst he
    rcases mem_append.mp hj with hj | hj
    · exact hdisj j hj j mem_cons_self rfl
    · exact (nodup_cons.mp hcons).1 hj
  refine ⟨hu.stack.trans f.stack, f.nodup, ?_, f.fresh, ?_, hu.placed⟩
  · exact arms_replace f.arms hlen (fun j hj => hu.others j (hne j hj)) hk
  · intro j hj
    rw [mem_append, mem_cons, not_or, not_or] at hj
    rw [hu.others j hj.2.1]
    exact f.others j (by simp [hj.1, hj.2.1, hj.2.2])

end Forked

namespace Step

variable {α β : Type}
variable {s : State} {sc : Scope}

def Branches (m : Step Handle) (N : Local → Scope → Prop) : Prop :=
  ∀ s h sc, s.Working h sc → m.Ends s
    (fun k t => Opened k s t ∧ ∃ arm, t.arena.scope? k = some arm ∧ N (s.localView sc) arm)
    (fun t => t.stack = s.stack)

theorem ends_branch {p : Handle} (hp : s.arena.scope? p = some sc) (hplaced : s.arena.Placed)
    (side : BranchSide) {E : State → Prop} :
    (Step.branch p side).Ends s
      (fun k t => Opened k s t ∧ t.sink = s.sink ∧
        ∃ arm, t.arena.scope? k = some arm ∧ arm.vars = sc.vars) E := by
  have hadd := Arena.scope?_add s.arena (some p) side sc.vars
  refine Runs.onArena (Arena.branch_eq hp side) ⟨⟨rfl, Arena.scope?_size _, ?_, hplaced.add _ _ _, rfl, rfl⟩,
    rfl, ?_⟩
  · intro j hj
    exact (hadd j).trans (if_neg hj)
  · exact ⟨_, (hadd _).trans (if_pos rfl), rfl⟩

/-- Entering a live scope, working in it and leaving it: only the work itself is left. -/
theorem Ends.inScope {m : Step α} {k : Handle} {arm : Scope} (hk : s.arena.scope? k = some arm)
    (hplaced : s.arena.Placed) {Q : α → State → Prop}
    (hm : ∀ s₁ : State, s₁.Working k arm → s₁.arena = s.arena → s₁.rest = s.rest →
      m.Ends s₁
        (fun a t => t.stack = s₁.stack ∧
          ∀ u : State, u.stack = s.stack → u.arena = t.arena → u.rest = t.rest → Q a u)
        (fun t => t.stack = s₁.stack)) : (Step.inScope k m).Ends s Q (fun t => t.stack = s.stack) := by
  let s₁ := s.updateFrame fun f => { f with scopes := k :: f.scopes }
  have harena : s₁.arena = s.arena := State.arena_updateFrame s _
  have hw : s₁.Working k arm := by
    refine ⟨?_, by rw [harena]; exact hk, by rw [harena]; exact hplaced⟩
    rw [State.currentHandle, State.stack_updateFrame_push]
  -- Leaving puts the stack back, whether the step has succeeded or not.
  have hleave : ∀ t : State, t.stack = s₁.stack → ∀ (Q : Unit → State → Prop),
      (∀ u : State, u.stack = s.stack → u.arena = t.arena → u.rest = t.rest → Q () u) →
      (Step.leaveScope k).Ends t Q fun t => t.stack = s.stack := by
    intro t ht Q hQ
    obtain ⟨hpop, hstack⟩ := State.stack_pop_push ht
    have hu := hQ (t.updateFrame fun f => { f with scopes := s.currentFrame.scopes }) hstack
      (State.arena_updateFrame t _) (State.rest_updateFrame_scopes t fun _ => s.currentFrame.scopes)
    simpa [Ends, Runs, Step.leaveScope, Step.popScope, hpop, Bind.bind, Step.bind, Step.pure] using hu
  apply Runs.bind
  refine Runs.modify ?_
  apply Ends.ensuring
  apply Runs.bind
  refine Runs.getFault (Arena.get_of_scope? hw.scope) ?_
  refine (hm s₁ hw harena (State.rest_updateFrame_scopes s (k :: ·))).mono ?_
    fun t ht => hleave t ht _ fun u hu _ _ => hu
  rintro a t ⟨ht, hQ⟩
  exact hleave t ht _ hQ

/-- Within a live scope a step does what it does in the current one. -/
theorem Acts.inScope {m : Step α} {Φ : Local → α → Local → Prop} (hm : m.Acts Φ) {k : Handle} {arm : Scope}
    (hk : s.arena.scope? k = some arm) (hplaced : s.arena.Placed) :
    (Step.inScope k m).Ends s
      (fun a t => Undisturbed k s t ∧
        ∃ arm', t.arena.scope? k = some arm' ∧ Φ (s.localView arm) a (t.localView arm'))
      (fun t => t.stack = s.stack) := by
  refine Ends.inScope hk hplaced fun s₁ hw harena hrest => ?_
  refine (hm s₁ k arm hw).mono ?_ fun t ht => ht
  rintro a t ⟨hu, arm', harm, hΦ⟩
  refine ⟨hu.stack, fun u hst har hre => ⟨⟨hst, fun j hj => ?_, ?_⟩, arm', ?_, ?_⟩⟩
  · rw [har, hu.others j hj, harena]
  · rw [har]
    exact hu.placed
  · rw [har]
    exact harm
  · have h₁ : s₁.localView arm = s.localView arm := by simp only [State.localView, harena, hrest]
    have h₂ : t.localView arm' = u.localView arm' := by simp only [State.localView, har, hre]
    rw [← h₁, ← h₂]
    exact hΦ

theorem ends_merge {ks : List Handle} {arms : List Scope} {t : State} (f : Forked ks arms s t) {h : Handle}
    (w : s.Working h sc) {E : State → Prop} :
    (Step.merge h ks).Ends t (fun _ u => Undisturbed h s u ∧ u.arena.scope? h = some (sc.merge arms) ∧
      u.arena.nextWrite = t.arena.nextWrite ∧ u.rest = t.rest) E := by
  obtain ⟨hks, hsc⟩ := f.scope? w.scope
  have hscope := Arena.scope?_merge f.placed hsc ks arms
  refine Runs.onArena (a := ()) (b := ks.foldl Arena.discard (t.arena.put (sc.merge arms))) ?_
    ⟨⟨f.stack, ?_, (f.placed.put _).foldl_discard ks⟩, ?_, ?_, rfl⟩
  · rw [Arena.merge_eq hsc f.arms]
    rfl
  · intro j hj
    rw [hscope, if_neg hj]
    split
    · rename_i hm
      exact (f.fresh j hm).symm
    · rename_i hm
      exact f.others j hm
  · rw [hscope, if_neg hks, if_pos rfl]
  · rw [Arena.nextWrite_foldl_discard, Arena.nextWrite_put]

end Step

end PhpFlow
