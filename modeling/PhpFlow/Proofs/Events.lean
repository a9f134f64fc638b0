import PhpFlow.Proofs.Frames
import PhpFlow.Proofs.Integrity

/-!
# What an analysis does

To an observer an analysis is a sequence of events: issues are reported, variables are read, variables are
written. What is done with scopes on the way is no event. The events say at what depth an issue was reported,
that is in how many functions one within the other.
-/
namespace PhpFlow

inductive Event where
  /-- An issue is reported while that many functions are being analysed. -/
  | issue (i : Issue) (depth : Nat)
  | read (name : String)
  | write (name : String)

namespace Event

def issue? : Event → Option Issue
  | issue i _ => some i
  | read _ | write _ => none

def isWrite : Event → Bool
  | write _ => true
  | issue _ _ | read _ => false

end Event

def State.depth (s : State) : Nat := s.frames.length

def Variable.KeepsCounts (f : Variable → Variable) : Prop :=
  ∀ v, (f v).reads = v.reads ∧ (f v).writes = v.writes ∧ (f v).history = v.history

namespace Step

/-- The events of a step that is run from a state. -/
inductive Traces : {α : Type} → Step α → State → List Event → Prop
  | still {α : Type} {m : Step α} {s : State} (harena : (m s).2.arena = s.arena)
      (hsink : (m s).2.sink = s.sink) (hdepth : (m s).2.depth = s.depth) : Traces m s []
  | query {α : Type} (q : Query α) (s : State) :
      Traces (Step.query q) s ((q s).2.map fun i => .issue i s.depth)
  | branch (parent : Handle) (side : BranchSide) (s : State) : Traces (Step.branch parent side) s []
  | merge (parent : Handle) (branches : List Handle) (s : State) : Traces (Step.merge parent branches) s []
  | discard (h : Handle) (s : State) : Traces (Step.discard h) s []
  | touch (h : Handle) (name : String) {f : Variable → Variable} (hf : Variable.KeepsCounts f) (s : State) :
      Traces (Step.onArena fun a => (a.updateVar h name f).map fun b => ((), b)) s []
  | read {h : Handle} (name : String) (r : Option Range) {s : State} (hh : s.arena.isLive h) :
      Traces (Step.onArena fun a => (a.updateVar h name (·.read r)).map fun b => ((), b)) s [.read name]
  | write {h : Handle} (name : String) (type : TypeUnion) (value : Option Value) (range : Option Range)
      {s : State} (hh : s.arena.isLive h) :
      Traces (Step.onArena fun a => (a.write h name type value range).map fun (_, b) => ((), b)) s
        [.write name]
  | inFrame {α : Type} (name : Option QualifiedName) {m : Step α} {s : State} {es : List Event}
      (hm : Traces m (enterFrame name s) es) : Traces (Step.inFrame name m) s es
  | bind {α β : Type} {m : Step α} {f : α → Step β} {s t : State} {a : α} {es fs : List Event}
      (hm : Traces m s es) (ht : m s = (.ok a, t)) (hf : Traces (f a) t fs) : Traces (m >>= f) s (es ++ fs)
  | fault {α β : Type} {m : Step α} {f : α → Step β} {s t : State} {e : Fault} {es : List Event}
      (hm : Traces m s es) (ht : m s = (.error e, t)) : Traces (m >>= f) s es
  | ensuring {α : Type} {m : Step α} {last : Step Unit} {s : State} {es fs : List Event}
      (hm : Traces m s es) (hlast : Traces last (m s).2 fs) : Traces (Step.ensuring m last) s (es ++ fs)
  | guarded {α : Type} {m : Step α} {s : State} {es : List Event} (hm : Traces m s es)
      (hs : ∀ e, (m s).1 = .error e → e.isInternal = false) (r : Range) (fallback : α) :
      Traces (Step.guarded r fallback m) s es
  | caught {α : Type} {m : Step α} {s t : State} {e : Fault} {es : List Event} (hm : Traces m s es)
      (ht : m s = (.error e, t)) (he : e.isInternal) (r : Range) (fallback : α) :
      Traces (Step.guarded r fallback m) s
        (es ++ [.issue ⟨.internalError, e.message, some (t.position r)⟩ s.depth])

end Step

section Leading

/-- The events lead from one state to the other: the issues have come to the sink, every write has got a
number, and all functions entered have been left. -/
structure State.Leads (s : State) (es : List Event) (t : State) : Prop where
  depth : t.depth = s.depth
  sink : t.sink = (es.filterMap Event.issue?).foldl Sink.emit s.sink
  nextWrite : t.arena.nextWrite = s.arena.nextWrite + es.countP Event.isWrite
  within : ∀ i d, .issue i d ∈ es → s.depth ≤ d

namespace State.Leads

variable {s t u : State} {es fs : List Event}

theorem nothing (hdepth : t.depth = s.depth) (hsink : t.sink = s.sink)
    (hnext : t.arena.nextWrite = s.arena.nextWrite) : s.Leads [] t :=
  ⟨hdepth, hsink, hnext, by simp⟩

theorem trans (h : s.Leads es t) (h' : t.Leads fs u) : s.Leads (es ++ fs) u where
  depth := h'.depth.trans h.depth
  sink := by rw [h'.sink, h.sink, List.filterMap_append, List.foldl_append]
  nextWrite := by rw [h'.nextWrite, h.nextWrite, List.countP_append, Nat.add_assoc]
  within i d hi := by
    rcases List.mem_append.mp hi with hi | hi
    · exact h.within i d hi
    · exact h.depth ▸ h'.within i d hi

theorem emit (s : State) (i : Issue) : s.Leads [.issue i s.depth] (Step.emit s i) where
  depth := rfl
  sink := rfl
  nextWrite := rfl
  within j d hj := by
    obtain ⟨-, rfl⟩ : j = i ∧ d = s.depth := by simpa using hj
    exact Nat.le_refl _

theorem foldl_emit (found : List Issue) (s : State) :
    s.Leads (found.map fun i => .issue i s.depth) (found.foldl Step.emit s) := by
  induction found generalizing s with
  | nil => exact nothing rfl rfl rfl
  | cons i is ih => exact (emit s i).trans (ih (Step.emit s i))

/-- An operation on the scopes that writes to no variable. -/
theorem onArena {α : Type} {f : Arena → Except Fault (α × Arena)} (s : State)
    (hf : ∀ a b, f s.arena = .ok (a, b) → b.nextWrite = s.arena.nextWrite) :
    s.Leads [] (Step.onArena f s).2 := by
  unfold Step.onArena
  split
  · next a b hab => exact nothing rfl rfl (hf a b hab)
  · exact nothing rfl rfl rfl

theorem onArena_map {f : Arena → Except Fault Arena} (s : State)
    (hf : ∀ b, f s.arena = .ok b → b.nextWrite = s.arena.nextWrite) :
    s.Leads [] (Step.onArena (fun a => (f a).map fun b => ((), b)) s).2 := by
  refine onArena s fun _ b hab => ?_
  cases hs : f s.arena with
  | error e => simp [hs, Except.map] at hab
  | ok c =>
    obtain rfl : c = b := by simpa [hs, Except.map] using hab
    exact hf c hs

end State.Leads

namespace Arena

variable {a b : Arena} {h : Handle}

theorem nextWrite_branch {k : Handle} {side : BranchSide} (hb : a.branch h side = .ok (k, b)) :
    b.nextWrite = a.nextWrite := by
  unfold branch at hb
  cases hs : a.get h with
  | error e => simp [hs, Bind.bind, Except.bind] at hb
  | ok sc =>
    simp only [hs, Bind.bind, Except.bind, Pure.pure, Except.pure, Except.ok.injEq, Prod.mk.injEq, add] at hb
    rw [← hb.2]

theorem nextWrite_updateVar {name : String} {f : Variable → Variable} (hb : a.updateVar h name f = .ok b) :
    b.nextWrite = a.nextWrite := by
  unfold updateVar at hb
  cases hs : a.get h with
  | error e => simp [hs, Bind.bind, Except.bind] at hb
  | ok sc =>
    simp only [hs, Bind.bind, Except.bind, Pure.pure, Except.pure, Except.ok.injEq] at hb
    rw [← hb, nextWrite_put]

theorem nextWrite_merge {ks : List Handle} (hb : a.merge h ks = .ok b) : b.nextWrite = a.nextWrite := by
  unfold merge at hb
  cases hs : a.get h with
  | error e => simp [hs, Bind.bind, Except.bind] at hb
  | ok sc =>
    cases hks : ks.mapM a.get with
    | error e => simp [hs, hks, Bind.bind, Except.bind] at hb
    | ok arms =>
      simp only [hs, hks, Bind.bind, Except.bind, Pure.pure, Except.pure, Except.ok.injEq] at hb
      rw [← hb, nextWrite_foldl_discard, nextWrite_put]

theorem nextWrite_foldr_discard (ks : List Handle) (a : Arena) :
    (ks.foldr (fun h a => a.discard h) a).nextWrite = a.nextWrite := by
  induction ks with
  | nil => rfl
  | cons k ks ih => rw [List.foldr_cons, nextWrite_discard, ih]

end Arena

theorem State.Leads.leaveFrame {name : Option QualifiedName} {s t : State} {es : List Event}
    (h : (Step.enterFrame name s).Leads es t) (depth : Nat) : s.Leads es (Step.leaveFrame depth t) := by
  have hdepth : t.depth = s.depth + 1 := h.depth
  cases hf : t.frames with
  | nil => simp [State.depth, hf] at hdepth
  | cons f fs =>
    refine ⟨?_, ?_, ?_, fun i d hi => Nat.le_of_succ_le (h.within i d hi)⟩
    · simpa [State.depth, Step.leaveFrame, hf] using hdepth
    · rw [Step.leaveFrame, hf]
      exact h.sink
    · rw [Step.leaveFrame, hf]
      exact (Arena.nextWrite_foldr_discard f.scopes t.arena).trans h.nextWrite

/-- The events that a step has lead from the state before it to the one after it. -/
theorem Step.Traces.leads {α : Type} {m : Step α} {s : State} {es : List Event} (h : m.Traces s es) :
    s.Leads es (m s).2 := by
  induction h with
  | still harena hsink hdepth => exact .nothing hdepth hsink (by rw [harena])
  | query q s => exact .foldl_emit (q s).2 s
  | branch parent side s => exact .onArena s fun _ _ hab => Arena.nextWrite_branch hab
  | merge parent branches s => exact .onArena_map s fun _ hb => Arena.nextWrite_merge hb
  | discard h s => exact .nothing rfl rfl (Arena.nextWrite_discard s.arena h)
  | touch h name hf s => exact .onArena_map s fun _ hb => Arena.nextWrite_updateVar hb
  | @read h name r s hh =>
    obtain ⟨sc, hsc⟩ := State.exists_scope hh
    have hrun : Step.onArena (fun a => (a.updateVar h name (·.read r)).map fun b => ((), b)) s =
        (.ok (), { s with arena := s.arena.put (sc.updateVar name (·.read r)) }) := by
      simp [Step.onArena, Arena.updateVar_eq hsc, Except.map]
    rw [hrun]
    exact ⟨rfl, rfl, by simp [Event.isWrite], by simp⟩
  | @write h name type value range s hh =>
    obtain ⟨sc, hsc⟩ := State.exists_scope hh
    have hrun : (Step.onArena (fun a => (a.write h name type value range).map fun (_, b) => ((), b)) s).2 =
        { s with arena := { s.arena.put (sc.updateVar name
            (·.write ⟨s.arena.nextWrite, type, value, range⟩)) with nextWrite := s.arena.nextWrite + 1 } } := by
      simp [Step.onArena, Arena.write_eq hsc, Except.map]
    rw [hrun]
    exact ⟨rfl, rfl, by simp [Event.isWrite], by simp⟩
  | @inFrame α name m s es hm ih =>
    rw [Step.inFrame_apply]
    exact ih.leaveFrame s.loopDepth
  | @bind α β m f s t a es fs hm ht hf ihm ihf =>
    rw [ht] at ihm
    rw [Step.bind_eq_of_ok ht]
    exact ihm.trans ihf
  | @fault α β m f s t e es hm ht ihm =>
    rw [ht] at ihm
    rwa [Step.bind_eq_of_error ht]
  | @ensuring α m last s es fs hm hlast ihm ihlast =>
    rw [Step.ensuring_snd]
    exact ihm.trans ihlast
  | @guarded α m s es hm hs r fallback ih =>
    have hrun : (Step.guarded r fallback m s).2 = (m s).2 := by
      unfold Step.guarded
      rcases ht : m s with ⟨e | a, t⟩
      · have he := hs e (by rw [ht])
        simp [he]
      · rfl
    rw [hrun]
    exact ih
  | @caught α m s t e es hm ht he r fallback ih =>
    have hrun : (Step.guarded r fallback m s).2 =
        Step.emit t ⟨.internalError, e.message, some (t.position r)⟩ := by
      simp [Step.guarded, ht, he]
    rw [ht] at ih
    rw [hrun]
    exact ih.depth ▸ ih.trans (.emit t _)

end Leading

end PhpFlow
