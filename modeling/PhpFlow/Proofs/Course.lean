import PhpFlow.Proofs.Histories
import PhpFlow.Proofs.Integrity

/-!
# The course of an analysis

The states that an analysis can come to, one change after the other: scopes are made, merged and discarded,
something is noted about a variable, and now and then a value that was computed before is written, returned or
made a constant. What holds at the start and is kept by each of the changes holds at every moment.
-/
namespace PhpFlow

open Arena (Session)
open Arena.Session (Moves)

/-- The values that an analysis computes in a state: those of expressions, what counting up or down makes
of them, and their elements. -/
inductive State.Yields (s : State) : Value → Prop where
  | value (e : Expr) {v : Value} : (e.value s).1 = .ok (some v) → s.Yields v
  | counted (op : String) {v w : Value} : s.Yields v → updatedValue op (some v) = .ok (some w) → s.Yields w
  | element {k : ArrayKey} {es : List (ArrayKey × Value)} {v : Value} : s.Yields (.array es) →
      Value.lookup? k es = some v → s.Yields v

def State.returns (s : State) : List (TypeUnion × Option Value) :=
  (s.fileFrame :: s.frames).flatMap (·.returns)

/-- An analysis can come to the state after it has made these writes. -/
inductive Course : State → List Write → Prop where
  | start (config : Config) (file : Option String) (sink : Sink) : Course (.new {} config file sink) []
  /-- A file is entered with the symbols of those before it. -/
  | file {s : State} {made : List Write} (hs : Course s made) (config : Config) (file : Option String)
      (sink : Sink) : Course (.new s.symbols config file sink) []
  /-- A change of what holds no values; what a function has returned may be dropped. -/
  | aside {s t : State} {made : List Write} (hs : Course s made) (harena : t.arena = s.arena)
      (hconstants : t.symbols.constants = s.symbols.constants) (hreturns : t.returns ⊆ s.returns) :
      Course t made
  /-- An operation on the scopes that makes no write. -/
  | scopes {s : State} {made : List Write} {a : Arena} (hs : Course s made)
      (ha : Moves ⟨s.arena, made⟩ ⟨a, made⟩) : Course { s with arena := a } made
  | write {s s₀ : State} {made made₀ : List Write} {a : Arena} {w : Write} (hs : Course s made)
      (hs₀ : Course s₀ made₀) (hw : ∀ v, w.value = some v → s₀.Yields v)
      (ha : Moves ⟨s.arena, made⟩ ⟨a, made ++ [w]⟩) : Course { s with arena := a } (made ++ [w])
  | return_ {s s₀ : State} {made made₀ : List Write} {value : Option Value} (type : TypeUnion)
      (hs : Course s made) (hs₀ : Course s₀ made₀) (hv : ∀ v, value = some v → s₀.Yields v) :
      Course (s.updateFrame fun f => { f with returns := f.returns ++ [(type, value)] }) made
  | constant {s s₀ : State} {made made₀ : List Write} {value : Option Value} (name : QualifiedName)
      (type : Option TypeUnion) (hs : Course s made) (hs₀ : Course s₀ made₀)
      (hv : ∀ v, value = some v → s₀.Yields v) :
      Course { s with symbols := s.symbols.addConstant ⟨name, type, value⟩ } made

def State.Occurs (s : State) : Prop := ∃ made, Course s made

/-- The value is unknown, or it has been computed in the course of an analysis. -/
def Computed (value : Option Value) : Prop := ∃ s : State, s.Occurs ∧ ∀ v, value = some v → s.Yields v

section Sessions

variable {s : State}

theorem Arena.Session.Sound.moves {s t : Session} (hs : s.Sound) (op : Arena.Op) (h : s.perform op = .ok t) :
    s.Moves t := by
  have hstep : s.step op = (.ok (), t) := by simp [Session.step, h]
  rcases Session.step_cases hs op with ⟨-, -, hmoves⟩ | ⟨k, -, -, herr⟩
  · rwa [hstep] at hmoves
  · simp [hstep] at herr

theorem State.sound_new (symbols : SymbolTable) (config : Config) (file : Option String) (sink : Sink) :
    Session.Sound ⟨(State.new symbols config file sink).arena, []⟩ :=
  (Session.sound_empty.moves .newRoot rfl).sound Session.sound_empty

/-- The scopes of a state that occurs are those of a sound session. -/
theorem Course.sound {made : List Write} (h : Course s made) : Session.Sound ⟨s.arena, made⟩ := by
  induction h with
  | start config file sink => exact State.sound_new {} config file sink
  | file _ config file sink => exact State.sound_new _ config file sink
  | aside _ harena _ _ ih => rwa [harena]
  | scopes _ ha ih => exact ha.sound ih
  | write _ _ _ ha ih _ => exact ha.sound ih
  | return_ type _ _ _ ih _ => rwa [State.arena_updateFrame]
  | constant _ _ _ _ _ ih _ => exact ih

/-- At every moment of an analysis each variable is coherent. -/
theorem State.Occurs.coherent (hs : s.Occurs) {h : Handle} {sc : Scope} (hsc : s.arena.scope? h = some sc)
    {v : Variable} (hv : v ∈ sc.vars) : v.Coherent := by
  obtain ⟨made, hcourse⟩ := hs
  exact (hcourse.sound.accounted h sc hsc v hv).toCoherent

/-- In a state of an analysis the current scope can be worked in. -/
theorem State.Occurs.working (hs : s.Occurs) {sc : Scope} (hsc : s.currentScope = .ok sc) :
    ∃ h, s.Working h sc := by
  obtain ⟨made, hcourse⟩ := hs
  cases hh : s.currentHandle with
  | error e => simp [State.currentScope, hh, bind, Except.bind] at hsc
  | ok h =>
    have hget : s.arena.get h = .ok sc := by simpa [State.currentScope, hh, bind, Except.bind] using hsc
    cases hscope : s.arena.scope? h with
    | none => simp [Arena.get, hscope] at hget
    | some sc' =>
      obtain rfl : sc' = sc := by simpa [Arena.get, hscope] using hget
      exact ⟨h, hh, hscope, hcourse.sound.placed⟩

end Sessions

namespace Computed

variable {value : Option Value}

theorem none : Computed none :=
  ⟨.new {} {} .none .discarding, ⟨[], .start _ _ _⟩, fun _ h => by cases h⟩

theorem of_value {s : State} (hs : s.Occurs) {e : Expr} (h : (e.value s).1 = .ok value) : Computed value :=
  ⟨s, hs, fun v hv => .value e (by rw [h, hv])⟩

theorem updatedValue {op : String} {value' : Option Value} (h : Computed value)
    (hop : updatedValue op value = .ok value') : Computed value' := by
  obtain ⟨s, hs, hyields⟩ := h
  cases value with
  | none =>
    obtain rfl : value' = .none := by simpa [PhpFlow.updatedValue, eq_comm] using hop
    exact .none
  | some v => exact ⟨s, hs, fun w hw => .counted op (hyields v rfl) (by rw [hop, hw])⟩

theorem elementOf (h : Computed value) (u : TypeUnion) (key : Option ArrayKey) :
    Computed (elementOf u value key).2 := by
  obtain ⟨s, hs, hyields⟩ := h
  refine ⟨s, hs, fun w hw => ?_⟩
  unfold PhpFlow.elementOf at hw
  dsimp only at hw
  split at hw
  · exact .element (hyields _ rfl) hw
  · cases hw

end Computed

namespace Step

variable {α β : Type}

instance : Onward fun s t => s.Occurs → t.Occurs where
  trans hst htu hs := htu (hst hs)
  sink _ _ := fun ⟨made, hcourse⟩ => ⟨made, hcourse.aside rfl rfl fun _ h => h⟩

abbrev Remains (m : Step α) : Prop := m.Shifts fun s t => s.Occurs → t.Occurs

def Delivers (m : Step α) (Q : α → Prop) : Prop := ∀ s : State, s.Occurs → ∀ a, (m s).1 = .ok a → Q a

theorem delivers_value (e : Expr) : (Step.query e.value).Delivers Computed := fun _ hs _ ha => .of_value hs ha

namespace Remains

variable {m : Step α}

/-- The step after another one may rely on what that answers. -/
theorem bindDelivers {f : α → Step β} {Q : α → Prop} (hm : m.Remains) (hQ : m.Delivers Q)
    (hf : ∀ a, Q a → (f a).Remains) : (m >>= f).Remains := by
  intro s hs
  have hms := hm s hs
  rcases ht : m s with ⟨e | a, t⟩ <;> rw [ht] at hms
  · rwa [bind_eq_of_error ht]
  · rw [bind_eq_of_ok ht]
    exact hf a (hQ s hs a (by rw [ht])) t hms

theorem silently (q : Query α) : (Step.silently q).Remains := .still fun _ => rfl

theorem modify {g : State → State} (hg : ∀ s, (g s).arena = s.arena := by exact fun _ => rfl)
    (hconstants : ∀ s, (g s).symbols.constants = s.symbols.constants := by exact fun _ => rfl)
    (hreturns : ∀ s, (g s).returns = s.returns := by exact fun _ => rfl) : (Step.modify g).Remains := by
  rintro s ⟨made, hcourse⟩
  have hsubset : (g s).returns ⊆ s.returns := by simp [hreturns s]
  exact ⟨made, hcourse.aside (hg s) (hconstants s) hsubset⟩

/-- An operation on the scopes that makes no write. -/
theorem onArena {f : Arena → Except Fault (α × Arena)}
    (hf : ∀ {s : Session}, s.Sound → ∀ {a b}, f s.arena = .ok (a, b) → s.Moves { s with arena := b }) :
    (Step.onArena f).Remains := by
  rintro s ⟨made, hcourse⟩
  unfold Step.onArena
  split
  · next a b hab => exact ⟨made, hcourse.scopes (hf hcourse.sound hab)⟩
  · exact ⟨made, hcourse⟩

/-- Such an operation may be given as one of those that sessions have. -/
theorem perform {f : Arena → Except Fault (α × Arena)} (op : Arena.Op)
    (hf : ∀ (s : Session) {a b}, f s.arena = .ok (a, b) → s.perform op = .ok { s with arena := b }) :
    (Step.onArena f).Remains :=
  onArena fun hs _ _ hab => hs.moves _ (hf _ hab)

theorem branch (parent : Handle) (side : BranchSide) : (Step.branch parent side).Remains :=
  perform (.branch parent side) fun s a b hab => by
    simp [Session.perform, hab, Bind.bind, Except.bind, Pure.pure, Except.pure]

theorem merge (parent : Handle) (branches : List Handle) : (Step.merge parent branches).Remains := by
  refine perform (.merge parent branches) fun s a b hab => ?_
  cases hm : s.arena.merge parent branches with
  | error e => simp [hm, Except.map] at hab
  | ok c =>
    obtain rfl : c = b := by simpa [hm, Except.map] using hab
    simp [Session.perform, hm, Bind.bind, Except.bind, Pure.pure, Except.pure]

theorem discard (h : Handle) : (Step.discard h).Remains := by
  rintro s ⟨made, hcourse⟩
  exact ⟨made, hcourse.scopes (.discard hcourse.sound h)⟩

theorem noteVar (h : Handle) (name : String) {f : Variable → Variable}
    (hf : ∀ made, Variable.IsChange made made f) :
    (Step.onArena fun a => (a.updateVar h name f).map fun b => ((), b)).Remains := by
  refine onArena fun {s} hs a b hab => ?_
  cases hsc : s.arena.scope? h with
  | none => simp [Arena.updateVar, Arena.get, hsc, Bind.bind, Except.bind, Except.map] at hab
  | some sc =>
    obtain rfl : s.arena.put (sc.updateVar name f) = b := by
      simpa [Arena.updateVar_eq hsc, Except.map] using hab
    have hmoves := Moves.put hs hsc name (hf s.made) (.inl rfl)
    rwa [← hs.numbered, ← Arena.nextWrite_put s.arena (sc.updateVar name f)] at hmoves

theorem updateVar (name : String) {f : Variable → Variable}
    (hf : ∀ made, Variable.IsChange made made f) : (Step.updateVar name f).Remains :=
  .bind (.getFault _) fun h => noteVar h name hf

theorem write (name : String) (type : TypeUnion) {value : Option Value} (hv : Computed value)
    (range : Option Range) : (Step.write name type value range).Remains := by
  refine .bind (.getFault _) fun h => ?_
  rintro s ⟨made, hcourse⟩
  obtain ⟨s₀, ⟨made₀, hcourse₀⟩, hyields⟩ := hv
  cases hsc : s.arena.scope? h with
  | none =>
    have hdead : s.arena.write h name type value range = .error (.deadScope h) := by
      simp [Arena.write, Arena.updateVar, Arena.get, hsc, Bind.bind, Except.bind]
    simp only [Step.onArena, hdead, Except.map]
    exact ⟨made, hcourse⟩
  | some sc =>
    let w : Write := ⟨s.arena.nextWrite, type, value, range⟩
    let b : Arena := { s.arena.put (sc.updateVar name (·.write w)) with nextWrite := s.arena.nextWrite + 1 }
    have hperform : Session.perform ⟨s.arena, made⟩ (.write h name type value range) =
        .ok ⟨b, made ++ [w]⟩ := by
      simp [Session.perform, Arena.write_eq hsc, Bind.bind, Except.bind, Pure.pure, Except.pure, b, w]
    simp only [Step.onArena, Arena.write_eq hsc, Except.map]
    exact ⟨_, hcourse.write hcourse₀ hyields (hcourse.sound.moves _ hperform)⟩

theorem inLoop (hm : m.Remains) : (Step.inLoop m).Remains :=
  .bind modify fun _ => hm.ensuring modify

/-- Entering and leaving scopes does not show in what functions have returned. -/
theorem updateFrame {s : State} (hs : s.Occurs) {g : Frame → Frame} (hg : ∀ f, (g f).returns = f.returns) :
    (s.updateFrame g).Occurs := by
  obtain ⟨made, hcourse⟩ := hs
  refine ⟨made, hcourse.aside (State.arena_updateFrame s g) ?_ ?_⟩
  all_goals cases hf : s.frames <;> simp [State.updateFrame, State.returns, hf, hg]

theorem leaveScope (h : Handle) : (Step.leaveScope h).Remains := by
  have hpop : Step.popScope.Remains := by
    intro s hs
    unfold Step.popScope
    split
    · exact hs
    · exact updateFrame hs fun _ => rfl
  refine .bind hpop fun popped => ?_
  split
  · exact .pure ()
  · exact .fail _

theorem inScope (h : Handle) (hm : m.Remains) : (Step.inScope h m).Remains := by
  have hpush : (Step.pushScope h).Remains := fun s hs => updateFrame hs fun _ => rfl
  exact hpush.bind fun _ => .ensuring (.bind (.getFault _) fun _ => hm) (leaveScope h)

theorem enterFrame (name : Option QualifiedName) : (Step.modify (Step.enterFrame name)).Remains := by
  rintro s ⟨made, hcourse⟩
  have hroot := hcourse.scopes (hcourse.sound.moves .newRoot rfl)
  have hreturns : (Step.enterFrame name s).returns ⊆ s.returns := by simp [Step.enterFrame, State.returns]
  exact ⟨made, hroot.aside rfl rfl hreturns⟩

/-- A function is left: its scopes go, and so does what it has returned. -/
theorem leaveFrame (depth : Nat) : (Step.modify (Step.leaveFrame depth)).Remains := by
  rintro s ⟨made, hcourse⟩
  have hdiscard : ∀ hs : List Handle,
      Course { s with arena := hs.foldr (fun h a => a.discard h) s.arena } made := by
    intro hs
    induction hs with
    | nil => exact hcourse
    | cons h hs ih => exact ih.scopes (.discard ih.sound h)
  refine ⟨made, ?_⟩
  change Course (Step.leaveFrame depth s) made
  unfold Step.leaveFrame
  split
  · exact hcourse.aside rfl rfl fun _ hr => hr
  · next f fs hf =>
    refine (hdiscard f.scopes).aside rfl rfl fun r hr => ?_
    simp only [State.returns, hf, List.flatMap_cons, List.mem_append] at hr ⊢
    tauto

theorem inFrame (name : Option QualifiedName) (hm : m.Remains) : (Step.inFrame name m).Remains :=
  .bind (.get _) fun depth => .bind (enterFrame name) fun _ =>
    .ensuring (hm.bind fun _ => .bind (.get _) fun _ => .pure _) (leaveFrame depth)

end Remains

end Step

end PhpFlow
