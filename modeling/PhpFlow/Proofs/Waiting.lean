import PhpFlow.Proofs.Definitions

/-!
# Comments that wait

Of a comment that is waiting for the next statement nothing counts but its `@var` tags. Two states that differ
in such a comment only, and not in the tags, have the same future: no step can tell them apart.
-/
namespace PhpFlow

open List

/-- No answer depends on a comment that is waiting. -/
theorem queryClosed_deaf : QueryClosed (fun _ => True) fun q => ∀ s d, q { s with pendingDoc := d } = q s where
  pure _ _ _ := rfl
  bind hq hf s d := by
    change Query.bind _ _ _ = Query.bind _ _ _
    simp only [Query.bind, hq s d, hf _ s d]
  ask hf s d := by simp only [Query.ask, hf s { s with pendingDoc := d } rfl]
  ofExcept _ _ _ := rfl
  report _ _ _ _ _ := rfl
  unrecognized _ _ _ _ _ := rfl
  variableType r n _ s d := by
    unfold Meaning.ofVariable
    dsimp only
    split <;> rfl
  variableValue _ _ _ _ _ := rfl

theorem State.Ambient.deaf {α : Type} {f : State → α} (hf : Ambient f) (s : State) (d : Option DocText) :
    f { s with pendingDoc := d } = f s :=
  (hf { s with pendingDoc := d }).symm.trans (hf s)

/-- The states differ at most in the comment that is waiting, and there not in its tags. -/
def State.Alike (s t : State) : Prop := ∃ d, t = { s with pendingDoc := d } ∧ t.waiting = s.waiting

namespace Step

variable {α β : Type} {m m' : Step α}

/-- From such states the two steps have the same outcome, and lead to such states. -/
def Alike (m m' : Step α) : Prop := ∀ ⦃s t : State⦄, s.Alike t → (m' t).1 = (m s).1 ∧ (m s).2.Alike (m' t).2

namespace Alike

theorem pure (a : α) : (Pure.pure a : Step α).Alike (Pure.pure a) := fun _ _ h => ⟨rfl, h⟩

theorem cases (hm : m.Alike m') {s t : State} (h : s.Alike t) : ∃ r u d, m s = (r, u) ∧
    m' t = (r, { u with pendingDoc := d }) ∧ { u with pendingDoc := d }.waiting = u.waiting := by
  obtain ⟨hr, d, hu, hw⟩ := hm h
  exact ⟨_, _, d, rfl, Prod.ext hr hu, hu ▸ hw⟩

theorem bind {f f' : α → Step β} (hm : m.Alike m') (hf : ∀ a, (f a).Alike (f' a)) :
    (m >>= f).Alike (m' >>= f') := by
  intro s t h
  obtain ⟨e | a, u, d, hs, ht, hw⟩ := hm.cases h
  · rw [bind_eq_of_error hs, bind_eq_of_error ht]
    exact ⟨rfl, d, rfl, hw⟩
  · rw [bind_eq_of_ok hs, bind_eq_of_ok ht]
    exact hf a ⟨d, rfl, hw⟩

theorem andThen {a a' b b' : Step Bool} (ha : a.Alike a') (hb : b.Alike b') :
    (Step.andThen a b).Alike (Step.andThen a' b') := by
  refine .bind ha fun ok => ?_
  cases ok with
  | false => exact .pure false
  | true => exact hb

theorem ensuring {last : Step Unit} (hm : m.Alike m') (hlast : last.Alike last) :
    (Step.ensuring m last).Alike (Step.ensuring m' last) := by
  intro s t h
  obtain ⟨r, u, d, hs, ht, hw⟩ := hm.cases h
  obtain ⟨e | _, v, d', hu, hu', hw'⟩ := hlast.cases ⟨d, rfl, hw⟩
  all_goals
    simp only [Step.ensuring, hs, ht, hu, hu']
    exact ⟨trivial, d', rfl, hw'⟩

theorem guarded (r : Range) (fallback : α) (hm : m.Alike m') :
    (Step.guarded r fallback m).Alike (Step.guarded r fallback m') := by
  intro s t h
  obtain ⟨e | a, u, d, hs, ht, hw⟩ := hm.cases h
  · simp only [Step.guarded, hs, ht]
    split <;> exact ⟨rfl, d, rfl, hw⟩
  · simp only [Step.guarded, hs, ht]
    exact ⟨trivial, d, rfl, hw⟩

theorem getFault {f : State → Except Fault α} (hf : ∀ s d, f { s with pendingDoc := d } = f s) :
    (Step.getFault f).Alike (Step.getFault f) := by
  rintro s _ ⟨d, rfl, hw⟩
  exact ⟨hf s d, d, rfl, hw⟩

theorem currentHandle : Step.currentHandle.Alike Step.currentHandle := getFault fun _ _ => rfl

theorem get {f : State → α} (hf : ∀ s d, f { s with pendingDoc := d } = f s) :
    (Step.get f).Alike (Step.get f) :=
  getFault fun s d => congrArg Except.ok (hf s d)

theorem modify {g : State → State} (hg : ∀ s d, g { s with pendingDoc := d } = { g s with pendingDoc := d }) :
    (Step.modify g).Alike (Step.modify g) := by
  rintro s _ ⟨d, rfl, hw⟩
  have hdoc : (g s).pendingDoc = s.pendingDoc := congrArg (·.pendingDoc) (hg s s.pendingDoc)
  refine ⟨rfl, d, hg s d, ?_⟩
  simpa only [Step.modify, State.waiting, hg s d, hdoc] using hw

theorem onArena (f : Arena → Except Fault (α × Arena)) : (Step.onArena f).Alike (Step.onArena f) := by
  rintro s _ ⟨d, rfl, hw⟩
  unfold Step.onArena
  dsimp only
  split <;> exact ⟨rfl, d, rfl, hw⟩

theorem query {q : Query α} (hq : Asked q) : (Step.query q).Alike (Step.query q) := by
  rintro s _ ⟨d, rfl, hw⟩
  rw [query_eq, query_eq, hq.induction queryClosed_deaf s d]
  exact ⟨rfl, d, rfl, hw⟩

theorem updateFrame {g : Frame → Frame} :
    (Step.modify fun s => s.updateFrame g).Alike (Step.modify fun s => s.updateFrame g) :=
  .modify fun s _ => by cases hf : s.frames <;> simp [State.updateFrame, hf]

theorem inScope (h : Handle) (hm : m.Alike m') : (Step.inScope h m).Alike (Step.inScope h m') := by
  refine .bind .updateFrame fun _ => .ensuring (.bind (.getFault fun _ _ => rfl) fun _ => hm)
    (.bind ?_ fun popped => ?_)
  · rintro s _ ⟨d, rfl, hw⟩
    cases hf : s.frames <;> simp only [popScope, State.currentFrame, hf] <;> split <;>
      simp_all [State.updateFrame, State.Alike, State.waiting]
  · split
    · exact .pure ()
    · exact fun _ _ h => ⟨rfl, h⟩

theorem inFrame (name : Option QualifiedName) (hm : m.Alike m') :
    (Step.inFrame name m).Alike (Step.inFrame name m') := by
  refine .bind (.get fun _ _ => rfl) fun depth => .bind (.modify fun _ _ => rfl) fun _ => .ensuring
    (.bind hm fun _ => .bind (.get fun _ _ => rfl) fun _ => .pure _) (.modify fun s d => ?_)
  cases hf : s.frames <;> simp [leaveFrame, hf]

theorem inClass (name : QualifiedName) (hm : m.Alike m') :
    (PhpFlow.inClass name m).Alike (PhpFlow.inClass name m') :=
  .bind (.get fun _ _ => rfl) fun _ => .bind (.modify fun _ _ => rfl) fun _ => .ensuring hm (.modify fun _ _ => rfl)

theorem inLoop (hm : m.Alike m') : (Step.inLoop m).Alike (Step.inLoop m') :=
  .bind (.modify fun _ _ => rfl) fun _ => .ensuring hm (.modify fun _ _ => rfl)

end Alike

end Step

open Step (Alike)

theorem forkClosed_alike : ForkClosed fun m => m.Alike m where
  small :=
    { pure := .pure
      bind := .bind
      guarded := fun r fallback hm => .guarded r fallback hm
      get := fun hf => .get hf.deaf
      currentScope := .getFault fun _ _ => rfl
      query := .query
      read := fun _ _ => .bind .currentHandle fun _ => .onArena _
      note := fun _ _ _ => .bind .currentHandle fun _ => .onArena _
      write := fun _ _ _ => .bind .currentHandle fun _ => .onArena _
      waiting := fun s t ⟨d, ht, hw⟩ => ⟨congrArg Except.ok hw, d, ht, hw⟩
      setDoc := fun d s t ⟨_, ht, _⟩ => ⟨rfl, d, by simp [Step.modify, ht], rfl⟩ }
  getFault _ hf := .getFault hf
  branch _ _ := .onArena _
  narrowed _ _ _ := .onArena _
  merge _ _ := .onArena _
  discard _ := .modify fun _ _ => rfl
  inScope h _ hm := .inScope h hm

namespace Step.Alike

variable {a a' b b' : Step Bool}

theorem fork {first : Step Handle} {second : Handle → Step Handle} {work work' : Handle → Handle → Step Bool}
    (hfirst : first.Alike first) (hsecond : ∀ k, (second k).Alike (second k))
    (hwork : ∀ k₁ k₂, (work k₁ k₂).Alike (work' k₁ k₂)) :
    (Step.fork first second work).Alike (Step.fork first second work') :=
  .bind .currentHandle fun _ => .bind hfirst fun _ => .bind (hsecond _) fun _ => .bind (hwork _ _) fun _ =>
    .bind (.onArena _) fun _ => .pure _

theorem detour {makeBranch : Step Handle} (hm : MakesBranch makeBranch) (ha : a.Alike a') (side : BranchSide) :
    (Step.detour makeBranch side a).Alike (Step.detour makeBranch side a') :=
  fork (hm.induction forkClosed_alike) (fun _ => .onArena _) fun taken _ => .inScope taken ha

theorem choice (c : Expr) (ha : a.Alike a') (hb : b.Alike b') : (Step.choice c a b).Alike (Step.choice c a' b') :=
  fork ((MakesBranch.condition c .onTrue).induction forkClosed_alike)
    (fun _ => (MakesBranch.condition c .onFalse).induction forkClosed_alike)
    fun k₁ k₂ => .andThen (.inScope k₁ ha) (.inScope k₂ hb)

theorem switchArms (hasDefault : Bool) {arms arms' : List (Step Bool)} (harms : Forall₂ Alike arms arms') :
    (PhpFlow.switchArms hasDefault arms).Alike (PhpFlow.switchArms hasDefault arms') := by
  have hall (parent : Handle) : (analyzeArms parent arms).Alike (analyzeArms parent arms') := by
    induction harms with
    | nil => exact .pure _
    | cons harm _ ih =>
      refine .bind (.bind (.onArena _) fun k => .bind (.inScope k harm) fun _ => .pure _) fun r => ?_
      dsimp only
      split
      · exact .bind ih fun _ => .pure _
      · exact .pure _
  refine .bind .currentHandle fun parent => .bind (hall parent) fun r => ?_
  cases hasDefault with
  | true => exact .bind (.pure []) fun _ => .bind (.onArena _) fun _ => .pure _
  | false => exact .bind (.onArena _) fun _ => .bind (.pure _) fun _ => .bind (.onArena _) fun _ => .pure _

end Step.Alike

theorem definesClosed_alike : DefinesClosed fun m => m.Alike m where
  pure := .pure
  bind := .bind
  get hf := .get hf.deaf
  change hg := .modify fun _ _ => by cases hg <;> rfl
  ensuring hm hg := .ensuring hm (.modify fun _ _ => by cases hg <;> rfl)
  inClass name _ hm := .inClass name hm

variable {body body' : Step Bool}

theorem Function.alike_infer (f : Function) (name : QualifiedName) (hbody : body.Alike body') :
    (f.infer name body).Alike (f.infer name body') := by
  have h := forkClosed_alike
  refine .bind (.bind (.get fun _ _ => rfl) fun _ => .bind (.modify fun _ _ => rfl) fun _ => .ensuring
    (.inFrame _ (.bind (.getFault fun _ _ => rfl) fun root => .bind (h.small.bindParameters _ _) fun _ => ?_))
    (.modify fun _ _ => rfl)) fun _ => .pure _
  split
  · exact .bind hbody fun _ => h.reportUnused root
  · exact .bind (h.small.readDocType (b := true) _ _) fun _ => .bind hbody fun _ => h.reportUnused root

theorem Function.alike_define (f : Function) (hbody : body.Alike body') : (f.define body).Alike (f.define body') :=
  .bind (.get fun _ _ => rfl) fun name => .bind (.modify fun _ _ => rfl) fun _ =>
    .bind (f.alike_infer name hbody) fun _ => .modify fun _ _ => rfl

theorem Method.alike_define (m : Method) (hbody : body.Alike body') : (m.define body).Alike (m.define body') :=
  .bind (.get fun _ _ => rfl) fun _ => .bind (.modify fun _ _ => rfl) fun _ =>
    .bind (m.function.alike_infer _ hbody) fun _ => .modify fun _ _ => rfl

theorem storeClosed_alike : StoreClosed fun _ _ m => m.Alike m :=
  forkClosed_alike.small.stores fun _ _ _ _ =>
    .bind (.get fun _ _ => rfl) fun _ => .bind .currentHandle fun _ => .onArena _

/-- No code takes notice of a comment without tags. -/
theorem analysisClosed_alike : AnalysisClosed anyCode (fun _ => True) .nothing
    (fun _ _ _ m => m.Alike m) fun _ _ m => m.Alike m where
  toLeafClosed := forkClosed_alike.small.leaves storeClosed_alike
  lawful := Grade.lawful_nothing
  pure := .pure
  bind := .bind
  use _ cs _ := definesClosed_alike.registerUses cs
  addVoid {_} := .bind .updateFrame fun _ => .pure true
  function f _ _ hbody := f.alike_define hbody
  goesOn {_} := .pure true
  passesBy {_} _ := .pure true
  after := .bind
  andThen := .andThen
  guarded r hm := .guarded r true hm
  syntaxError _ _ _ _ := .bind (fun s _ ⟨d, ht, hw⟩ => by subst ht; exact ⟨rfl, d, rfl, hw⟩) fun _ => .pure false
  addReturned e := .bind (.query (.type e)) fun _ => .bind (.query (.value e)) fun _ =>
    .bind .updateFrame fun _ => .pure true
  detour hm ha side := .detour hm ha side
  choice c _ _ _ _ ha hb := .choice c ha hb
  inLoop := .inLoop
  switchArms hasDefault _ _ _ harms := .switchArms hasDefault (forall₂_same.mpr (forall_mem_of_forall₂ harms))
  method m _ hbody := m.alike_define hbody
  class_ r n p is ms isInterface k _ hms := definesClosed_alike.class_ (P := fun m => m.Alike m) .bind r n p is
    ms isInterface k (.pure true) (fun hm r => .guarded r true (.bind hm fun _ => .pure true)) hms
  namespace_ _ n _ _ hbody := definesClosed_alike.inNamespace (P := fun m => m.Alike m) .bind
    definesClosed_alike.ensuring n (fun _ => .pure true) hbody

end PhpFlow
