import PhpFlow.Proofs.Events

/-!
# Steps that meet no syntax error

Syntax errors stand in the code, so only the analysis of code comes across them. Whatever else belongs to an
analysis reports none: marking variables as read, storing what an expression gives, asking for types and
values, narrowing, binding parameters, reading doc comments.
-/
namespace PhpFlow

def Event.Clean (d : Nat) (es : List Event) : Prop := ∀ i, .issue i d ∈ es → i.kind ≠ .parseError

theorem Event.clean_nil (d : Nat) : Clean d [] := by simp [Clean]

theorem Event.Clean.append {d : Nat} {es fs : List Event} (h : Clean d es) (h' : Clean d fs) :
    Clean d (es ++ fs) := by
  intro i hi
  rcases List.mem_append.mp hi with hi | hi
  · exact h i hi
  · exact h' i hi

open Event (Clean clean_nil)

theorem Arena.get_of_not_isLive {a : Arena} {h : Handle} (hh : a.isLive h ≠ true) :
    a.get h = .error (.deadScope h) := by
  have hnone : a.scope? h = none := by simpa [isLive] using hh
  simp [get, hnone]

namespace Step

variable {α β : Type} {s : State}

/-- An operation on the scopes that fails changes nothing. -/
theorem traces_of_error {f : Arena → Except Fault (α × Arena)} {e : Fault} (he : f s.arena = .error e) :
    (Step.onArena f).Traces s [] := by
  have hrun : Step.onArena f s = (.error e, s) := by simp [Step.onArena, he]
  exact .still (by rw [hrun]) (by rw [hrun]) (by rw [hrun])

def Silent (m : Step α) : Prop := ∀ s, m.Traces s []

/-- Whatever the state, the step meets no syntax error at the depth where it runs. -/
def Calm (m : Step α) : Prop := ∀ s, ∃ es, m.Traces s es ∧ Clean s.depth es

namespace Silent

theorem pure (a : α) : (Pure.pure a : Step α).Silent := fun _ => .still rfl rfl rfl

theorem get (f : State → α) : (Step.get f).Silent := fun _ => .still rfl rfl rfl

theorem getFault (f : State → Except Fault α) : (Step.getFault f).Silent := fun _ => .still rfl rfl rfl

theorem modify {g : State → State} (harena : ∀ s, (g s).arena = s.arena := by exact fun _ => rfl)
    (hsink : ∀ s, (g s).sink = s.sink := by exact fun _ => rfl)
    (hframes : ∀ s, (g s).frames = s.frames := by exact fun _ => rfl) : (Step.modify g).Silent := by
  intro s
  refine .still (harena s) (hsink s) ?_
  exact congrArg List.length (hframes s)

theorem currentHandle : Step.currentHandle.Silent := getFault _

theorem bind {m : Step α} {f : α → Step β} (hm : m.Silent) (hf : ∀ a, (f a).Silent) : (m >>= f).Silent := by
  intro s
  rcases ht : m s with ⟨e | a, t⟩
  · exact .fault (hm s) ht
  · exact .bind (hm s) ht (hf a t)

theorem updateFrame (g : Frame → Frame) : (Step.modify fun s => s.updateFrame g).Silent := by
  intro s
  refine .still (State.arena_updateFrame s g) (sink_updateFrame s g) ?_
  cases hf : s.frames <;> simp [Step.modify, State.depth, State.updateFrame, hf]

theorem leaveScope (h : Handle) : (Step.leaveScope h).Silent := by
  refine .bind (fun s => ?_) fun popped => ?_
  · cases hs : s.currentFrame.scopes with
    | nil => exact .still (by simp [popScope, hs]) (by simp [popScope, hs]) (by simp [popScope, hs])
    | cons k rest =>
      have hpop : popScope s = (.ok k, s.updateFrame fun f => { f with scopes := rest }) := by
        simp [popScope, hs]
      refine .still ?_ ?_ ?_ <;> rw [hpop]
      · exact State.arena_updateFrame s _
      · exact sink_updateFrame s _
      · cases hf : s.frames <;> simp [State.depth, State.updateFrame, hf]
  · split
    · exact .pure ()
    · exact fun _ => .still rfl rfl rfl

theorem touch (name : String) {f : Variable → Variable} (hf : Variable.KeepsCounts f) :
    (Step.updateVar name f).Silent :=
  .bind .currentHandle fun h => Traces.touch h name hf

theorem calm {m : Step α} (hm : m.Silent) : m.Calm := fun s => ⟨[], hm s, clean_nil _⟩

end Silent

namespace Calm

variable {m : Step α}

theorem pure (a : α) : (Pure.pure a : Step α).Calm := (Silent.pure a).calm

theorem get (f : State → α) : (Step.get f).Calm := (Silent.get f).calm

theorem getFault (f : State → Except Fault α) : (Step.getFault f).Calm := (Silent.getFault f).calm

theorem touch (name : String) {f : Variable → Variable} (hf : Variable.KeepsCounts f) :
    (Step.updateVar name f).Calm :=
  (Silent.touch name hf).calm

theorem bind {f : α → Step β} (hm : m.Calm) (hf : ∀ a, (f a).Calm) : (m >>= f).Calm := by
  intro s
  obtain ⟨es, hes, hclean⟩ := hm s
  rcases ht : m s with ⟨e | a, t⟩
  · exact ⟨es, .fault hes ht, hclean⟩
  · obtain ⟨fs, hfs, hclean'⟩ := hf a t
    have hdepth : t.depth = s.depth := by simpa [ht] using hes.leads.depth
    exact ⟨es ++ fs, .bind hes ht hfs, hclean.append (hdepth ▸ hclean')⟩

theorem query {q : Query α} (hq : q.Orderly) : (Step.query q).Calm := by
  intro s
  refine ⟨_, .query q s, fun i hi => ?_⟩
  obtain ⟨j, hj, he⟩ := List.mem_map.mp hi
  obtain rfl : j = i := (Event.issue.inj he).1
  exact hq.noSyntaxError s j hj

theorem read (name : String) (r : Option Range) : (Step.updateVar name (·.read r)).Calm := by
  refine .bind (.getFault _) fun h s => ?_
  by_cases hh : s.arena.isLive h
  · exact ⟨[.read name], .read name r hh, by simp [Clean]⟩
  · refine ⟨[], traces_of_error (e := .deadScope h) ?_, clean_nil _⟩
    simp [Arena.updateVar, Arena.get_of_not_isLive hh, Bind.bind, Except.bind, Except.map]

theorem write (name : String) (type : TypeUnion) (value : Option Value) (range : Option Range) :
    (Step.write name type value range).Calm := by
  refine .bind (.getFault _) fun h s => ?_
  by_cases hh : s.arena.isLive h
  · exact ⟨[.write name], .write name type value range hh, by simp [Clean]⟩
  · refine ⟨[], traces_of_error (e := .deadScope h) ?_, clean_nil _⟩
    simp [Arena.write, Arena.updateVar, Arena.get_of_not_isLive hh, Bind.bind, Except.bind, Except.map]

theorem ensuring {last : Step Unit} (hm : m.Calm) (hlast : last.Silent) : (Step.ensuring m last).Calm := by
  intro s
  obtain ⟨es, hes, hclean⟩ := hm s
  exact ⟨es ++ [], .ensuring hes (hlast _), by simpa using hclean⟩

/-- The issue that a fault becomes is no syntax error. -/
theorem guarded (hm : m.Calm) (r : Range) (fallback : α) : (Step.guarded r fallback m).Calm := by
  intro s
  obtain ⟨es, hes, hclean⟩ := hm s
  rcases ht : m s with ⟨e | a, t⟩
  · by_cases he : e.isInternal
    · refine ⟨_, .caught hes ht he r fallback, hclean.append ?_⟩
      intro i hi
      obtain rfl := (Event.issue.inj (List.mem_singleton.mp hi)).1
      exact IssueKind.noConfusion
    · refine ⟨es, .guarded hes (fun e' he' => ?_) r fallback, hclean⟩
      obtain rfl : e = e' := by simpa [ht] using he'
      simpa using he
  · exact ⟨es, .guarded hes (by simp [ht]) r fallback, hclean⟩

theorem inScope (hm : m.Calm) (h : Handle) : (Step.inScope h m).Calm :=
  .bind (Silent.updateFrame _).calm fun _ =>
    .ensuring (.bind (.getFault _) fun _ => hm) (.leaveScope h)

end Calm

end Step

open Step (Calm Silent)

theorem Variable.Notes.keepsCounts {f : Variable → Variable} (hf : Variable.Notes f) :
    Variable.KeepsCounts f := by
  intro v
  obtain ⟨_, _, _, _, _, hv⟩ := hf v
  simp [hv]

theorem stepClosed_calm : StepClosed fun _ _ m => m.Calm where
  pure := .pure
  bind := .bind
  guarded r fallback hm := hm.guarded r fallback
  get _ := .get _
  currentScope := .getFault _
  query hq := .query hq.orderly
  read := .read
  note name _ hf := .touch name hf.keepsCounts
  write _ _ _ := .write _ _ _ _
  waiting := .get _
  setDoc _ := Silent.calm .modify

theorem NameChange.silent {g : State → State} (hg : NameChange g) : (Step.modify g).Silent := by
  apply Silent.modify <;> exact hg.keeps fun _ _ _ _ => rfl

theorem forkClosed_calm : ForkClosed fun m => m.Calm where
  small := stepClosed_calm
  getFault f _ := .getFault f
  branch parent side := Silent.calm fun s => .branch parent side s
  narrowed h name u := by
    have hkeeps : Variable.KeepsCounts fun v => { v with narrowed := some u } := fun _ => ⟨rfl, rfl, rfl⟩
    exact Silent.calm fun s => .touch h name hkeeps s
  merge parent branches := Silent.calm fun s => .merge parent branches s
  discard h := Silent.calm fun s => .discard h s
  inScope h _ hm := hm.inScope h

theorem MakesBranch.calm {m : Step Handle} (hm : MakesBranch m) : m.Calm := hm.induction forkClosed_calm

end PhpFlow
