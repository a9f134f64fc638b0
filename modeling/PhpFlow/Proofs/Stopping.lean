import PhpFlow.Proofs.Calm

/-!
# Where an analysis stops

A syntax error outside functions ends the analysis, and one in a function ends the analysis of that function
only. So the answer of a step tells whether it has met a syntax error at the depth where it runs, and if it
has, that was the last thing it did.
-/
namespace PhpFlow

open List

namespace Event

variable {d : Nat} {es fs : List Event}

/-- The first syntax error at this depth is the last event. -/
def Halted (d : Nat) (es : List Event) : Prop :=
  ∃ before i, es = before ++ [.issue i d] ∧ i.kind = .parseError ∧ Clean d before

/-- What has happened at this depth when the analysis goes on, and when it does not. -/
def Answered : Bool → Nat → List Event → Prop
  | true => Clean
  | false => Halted

theorem Clean.answered (h : Clean d es) {ok : Bool} (h' : Answered ok d fs) : Answered ok d (es ++ fs) := by
  cases ok with
  | true => exact h.append h'
  | false =>
    obtain ⟨before, i, rfl, hi, hbefore⟩ := h'
    exact ⟨es ++ before, i, (append_assoc es before [.issue i d]).symm, hi, h.append hbefore⟩

end Event

open Event (Clean Halted Answered clean_nil)

namespace Step

open State (Carries)

variable {α β : Type} {s : State}
variable {m : Step α}

theorem Runs.of_ok {Q : α → State → Prop} {E : Fault → State → Prop} (h : m.Runs s Q E) {a : α} {t : State}
    (ht : m s = (.ok a, t)) : Q a t := by
  simpa [Runs, ht] using h

def Gives (m : Step α) (P : α → Prop) : Prop := ∀ s a t, m s = (.ok a, t) → P a

namespace Gives

variable {m : Step α} {P : α → Prop}

theorem pure {a : α} (h : P a) : (Pure.pure a : Step α).Gives P := by
  intro s b t hb
  obtain rfl : a = b := Except.ok.inj (Prod.mk.inj hb).1
  exact h

theorem bind {f : α → Step β} {Q : β → Prop} (hf : ∀ a, (f a).Gives Q) : (m >>= f).Gives Q := by
  intro s b u hb
  obtain ⟨a, t, -, hft⟩ := exists_of_bind_eq_ok hb
  exact hf a t b u hft

theorem thenContinue (m : Step Unit) : (Step.thenContinue m).Gives (· = true) :=
  .bind fun _ => .pure rfl

theorem guarded (hm : m.Gives P) (r : Range) {fallback : α} (h : P fallback) :
    (Step.guarded r fallback m).Gives P := by
  intro s a t ha
  rcases hms : m s with ⟨e | b, u⟩
  · by_cases he : e.isInternal <;> simp [Step.guarded, hms, he] at ha
    exact ha.1 ▸ h
  · simp only [Step.guarded, hms] at ha
    obtain rfl : b = a := Except.ok.inj (Prod.mk.inj ha).1
    exact hm s b u hms

end Gives

/-- What the step answers tells whether it has stopped at a syntax error. -/
def Heeds (m : Step α) (goesOn : α → Bool) (s : State) : Prop :=
  ∃ es, m.Traces s es ∧ ∀ a t, m s = (.ok a, t) → Answered (goesOn a) s.depth es

namespace Heeds

variable {m : Step α} {f : α → Step β} {goesOn : α → Bool} {goesOn' : β → Bool}

theorem bind (hm : m.Heeds goesOn s)
    (hgo : ∀ a t, m s = (.ok a, t) → goesOn a = true → (f a).Heeds goesOn' t)
    (hstop : ∀ a, goesOn a = false → (f a).Silent ∧ (f a).Gives (goesOn' · = false)) :
    (m >>= f).Heeds goesOn' s := by
  obtain ⟨es, hes, hout⟩ := hm
  rcases ht : m s with ⟨e | a, t⟩
  · refine ⟨es, .fault hes ht, fun b u hb => ?_⟩
    simp [bind_eq_of_error ht] at hb
  · have hdepth : t.depth = s.depth := by simpa [ht] using hes.leads.depth
    have hes' := hout a t ht
    rw [Heeds, bind_eq_of_ok ht]
    cases hgoes : goesOn a with
    | true =>
      obtain ⟨fs, hfs, hout'⟩ := hgo a t ht hgoes
      rw [hgoes] at hes'
      exact ⟨es ++ fs, .bind hes ht hfs, fun b u hb => Clean.answered hes' (hdepth ▸ hout' b u hb)⟩
    | false =>
      obtain ⟨hsilent, hanswer⟩ := hstop a hgoes
      rw [hgoes] at hes'
      refine ⟨es ++ [], .bind hes ht (hsilent t), fun b u hb => ?_⟩
      rwa [hanswer t b u hb, append_nil]

end Heeds

theorem Calm.heeds (hm : m.Calm) (s : State) : m.Heeds (fun _ => true) s := by
  obtain ⟨es, hes, hclean⟩ := hm s
  exact ⟨es, hes, fun _ _ _ => hclean⟩

theorem Silent.heeds (hm : m.Silent) {goesOn : α → Bool} (h : m.Gives (goesOn · = true)) (s : State) :
    m.Heeds goesOn s := by
  refine ⟨[], hm s, fun a t ht => ?_⟩
  rw [h s a t ht]
  exact clean_nil _

namespace Heeds

variable {m : Step α} {f : α → Step β} {goesOn : α → Bool} {goesOn' : β → Bool}

theorem after (hm : m.Heeds (fun _ => true) s) (hf : ∀ a t, m s = (.ok a, t) → (f a).Heeds goesOn' t) :
    (m >>= f).Heeds goesOn' s :=
  hm.bind (fun a t ht _ => hf a t ht) fun _ h => Bool.noConfusion h

/-- Before something that has no events and passes the answer on. -/
theorem thenSilent (hm : m.Heeds goesOn s) (hf : ∀ a, (f a).Silent)
    (hanswer : ∀ a, (f a).Gives (goesOn' · = goesOn a)) : (m >>= f).Heeds goesOn' s :=
  hm.bind (fun a t _ h => (hf a).heeds (h ▸ hanswer a) t) fun a h => ⟨hf a, h ▸ hanswer a⟩

theorem ensuring {last : Step Unit} (hm : m.Heeds goesOn s) (hlast : last.Silent) :
    (Step.ensuring m last).Heeds goesOn s := by
  obtain ⟨es, hes, hout⟩ := hm
  refine ⟨es ++ [], .ensuring hes (hlast _), fun a u hu => ?_⟩
  obtain ⟨t, hms, -⟩ := exists_of_ensuring_eq_ok hu
  rw [append_nil]
  exact hout a t hms

theorem guarded (hm : m.Heeds goesOn s) (hs : ∀ e t, m s = (.error e, t) → e.isInternal = false) (r : Range)
    (fallback : α) : (Step.guarded r fallback m).Heeds goesOn s := by
  obtain ⟨es, hes, hout⟩ := hm
  rcases ht : m s with ⟨e | a, t⟩
  · have he := hs e t ht
    refine ⟨es, .guarded hes (fun e' he' => ?_) r fallback, fun b u hb => ?_⟩
    · obtain rfl : e = e' := by simpa [ht] using he'
      exact he
    · simp [Step.guarded, ht, he] at hb
  · refine ⟨es, .guarded hes (by simp [ht]) r fallback, fun b u hb => hout b u ?_⟩
    simpa [Step.guarded, ht] using hb

theorem inScope {h : Handle}
    (hm : m.Heeds goesOn (s.updateFrame fun f => { f with scopes := h :: f.scopes })) :
    (Step.inScope h m).Heeds goesOn s := by
  refine .after ((Silent.updateFrame _).calm.heeds s) fun _ t ht => ?_
  obtain rfl := (Prod.mk.inj ht).2
  refine .ensuring (.after ((Calm.getFault _).heeds _) fun sc u hu => ?_) (.leaveScope h)
  obtain rfl := (Prod.mk.inj hu).2
  exact hm

theorem withTemplates {names : List String}
    (hm : m.Heeds goesOn { s with templates := s.templates ++ names }) :
    (PhpFlow.withTemplates names m).Heeds goesOn s := by
  have hsilent : ∀ ts : State → List String, (Step.modify fun s => { s with templates := ts s }).Silent :=
    fun _ => .modify
  refine .after ((Calm.get _).heeds s) fun saved t ht => ?_
  obtain rfl := (Prod.mk.inj ht).2
  refine .after ((hsilent fun s => s.templates ++ names).calm.heeds s) fun _ u hu => ?_
  obtain rfl := (Prod.mk.inj hu).2
  exact hm.ensuring (hsilent fun _ => saved)

/-- What happens in a function happens further down. -/
theorem inFrame {name : Option QualifiedName} (hm : ∃ es, m.Traces (enterFrame name s) es) :
    (Step.inFrame name m).Heeds (fun _ => true) s := by
  obtain ⟨es, hes⟩ := hm
  refine ⟨es, .inFrame name hes, fun _ _ _ i hi => ?_⟩
  have hwithin : s.depth + 1 ≤ s.depth := hes.leads.within i s.depth hi
  omega

end Heeds

/-- The step is tidy, and wherever there is a scope its answer tells whether it has stopped. -/
structure Lawful (goesOn : α → Bool) (m : Step α) : Prop where
  tidy : m.Tidy true
  heeds : ∀ s, s.ScopesLive → s.HasScope → m.Heeds goesOn s

abbrev Harmless (m : Step α) : Prop := m.Lawful fun _ => true

abbrev Stoppable (m : Step Bool) : Prop := m.Lawful id

theorem Calm.harmless (hm : m.Calm) (htidy : m.Tidy true) : m.Harmless :=
  ⟨htidy, fun s _ _ => hm.heeds s⟩

namespace Lawful

variable {m : Step α} {goesOn : α → Bool}

/-- The state after a step has a scope if the one before it had one. -/
theorem carries (hm : m.Lawful goesOn) (hs : s.ScopesLive) (hc : s.HasScope) {a : α} {t : State}
    (ht : m s = (.ok a, t)) : s.Carries [] t :=
  (hm.tidy.runs hs hc).of_ok ht

theorem after {f : α → Step β} {goesOn : β → Bool} (hm : m.Harmless) (hf : ∀ a, (f a).Lawful goesOn) :
    (m >>= f).Lawful goesOn where
  tidy := .bind hm.tidy fun a => (hf a).tidy
  heeds s hs hc := by
    refine (hm.heeds s hs hc).after fun a t ht => ?_
    have hst := hm.carries hs hc ht
    exact (hf a).heeds t (hst.scopesLive hs) (hst.hasScope hc)

theorem pure {a : α} (h : goesOn a = true) : (Pure.pure a : Step α).Lawful goesOn where
  tidy := .pure a
  heeds s _ _ := (Silent.pure a).heeds (.pure h) s

theorem guarded (hm : m.Lawful goesOn) (r : Range) (fallback : α) :
    (Step.guarded r fallback m).Lawful goesOn where
  tidy := .guarded hm.tidy r fallback
  heeds s hs hc := by
    refine (hm.heeds s hs hc).guarded (fun e t ht => ?_) r fallback
    have hruns := hm.tidy.runs hs hc
    rw [Runs, ht] at hruns
    exact Fault.isInternal_of_isNumeric hruns.1

theorem bracket (hm : m.Lawful goesOn) {enter leave : State → State}
    (hs : s.ScopesLive) (hc : s.HasScope) (hframes : ∀ s, (enter s).frames = s.frames := by exact fun _ => rfl)
    (hfile : ∀ s, (enter s).fileFrame = s.fileFrame := by exact fun _ => rfl)
    (harena : ∀ s, (enter s).arena = s.arena := by exact fun _ => rfl)
    (henter : (Step.modify enter).Silent := by exact .modify)
    (hleave : (Step.modify leave).Silent := by exact .modify) :
    (do Step.modify enter; Step.ensuring m (Step.modify leave) : Step α).Heeds goesOn s := by
  refine .after (henter.calm.heeds s) fun _ t ht => ?_
  obtain rfl := (Prod.mk.inj ht).2
  refine (hm.heeds _ ?_ ?_).ensuring hleave
  · intro f hf h hh
    rw [hframes, hfile] at hf
    rw [harena]
    exact hs f hf h hh
  · simpa only [State.HasScope, State.currentFrame, hframes, hfile] using hc

theorem inLoop (hm : m.Lawful goesOn) : (Step.inLoop m).Lawful goesOn where
  tidy := .inLoop hm.tidy
  heeds _ hs hc := hm.bracket hs hc

theorem inClass (name : QualifiedName) (hm : m.Lawful goesOn) : (PhpFlow.inClass name m).Lawful goesOn where
  tidy := .inClass name hm.tidy
  heeds s hs hc := by
    refine .after ((Calm.get _).heeds s) fun saved t ht => ?_
    obtain rfl := (Prod.mk.inj ht).2
    exact hm.bracket hs hc

theorem change {g : State → State} (hg : NameChange g) : (Step.modify g).Harmless :=
  hg.silent.calm.harmless (.modify hg.aloof)

theorem ensuring (hm : m.Lawful goesOn) {g : State → State} (hg : NameChange g) :
    (Step.ensuring m (Step.modify g)).Lawful goesOn where
  tidy := .ensuring hm.tidy hg.aloof
  heeds s hs hc := (hm.heeds s hs hc).ensuring hg.silent

section Answers

variable {a b : Step Bool}
variable {arm : Step Bool}

theorem andThen (ha : a.Stoppable) (hb : b.Stoppable) : (Step.andThen a b).Stoppable where
  tidy := .andThen ha.tidy hb.tidy
  heeds s hs hc := by
    refine (ha.heeds s hs hc).bind (fun ok t ht hok => ?_) fun ok hok => ?_
    · obtain rfl : ok = true := hok
      have hst := ha.carries hs hc ht
      exact hb.heeds t (hst.scopesLive hs) (hst.hasScope hc)
    · obtain rfl : ok = false := hok
      exact ⟨.pure false, .pure rfl⟩

theorem heeds_merge {m : Step Bool} (hm : m.Heeds id s) (parent : Handle) (branches : List Handle) :
    (do let ok ← m; Step.merge parent branches; return ok : Step Bool).Heeds id s :=
  hm.thenSilent (fun ok => .bind (Traces.merge parent branches) fun _ => .pure ok)
    fun _ => .bind fun _ => .pure rfl

variable {ms : List (Step Bool)} {p k : Handle} {ks : List Handle} {t : State}

theorem heeds_arm (harm : arm.Stoppable) (hs : s.ScopesLive) (hst : s.Carries ks t) (hk : k ∈ ks) :
    (Step.inScope k arm).Heeds id t := by
  refine .inScope (harm.heeds _ (scopesLive_push (hst.scopesLive hs) (hst.isLive_new hk)) ?_)
  rw [State.HasScope, State.stack_updateFrame_push]
  simp

theorem heeds_fork {first : Step Handle} {second : Handle → Step Handle} {work : Handle → Handle → Step Bool}
    (hfirst : first.Calm) (hforks : first.Forks) (hsecond : ∀ p, (second p).Calm)
    (hforks' : ∀ p s, s.arena.isLive p → s.ScopesLive → s.HasScope →
      (second p).Runs s (fun k t => s.Carries [k] t) s.Aborted)
    (hwork : ∀ {s t : State} {k₁ k₂}, s.ScopesLive → s.Carries [k₁, k₂] t → (work k₁ k₂).Heeds id t)
    (hs : s.ScopesLive) (hc : s.HasScope) : (Step.fork first second work).Heeds id s := by
  refine .after ((Calm.getFault _).heeds s) fun p t ht => ?_
  obtain ⟨hp, rfl⟩ := Prod.mk.inj ht
  refine .after (hfirst.heeds s) fun k₁ t₁ ht₁ => ?_
  have h₁ : s.Carries [k₁] t₁ := (hforks s hs hc).of_ok ht₁
  refine .after ((hsecond p).heeds t₁) fun k₂ t₂ ht₂ => ?_
  have h₂ : t₁.Carries [k₂] t₂ :=
    (hforks' p t₁ (h₁.isLive (hs.current hp)) (h₁.scopesLive hs) (h₁.hasScope hc)).of_ok ht₂
  exact heeds_merge (hwork hs (h₁.trans h₂)) p [k₁, k₂]

theorem detour {makeBranch : Step Handle} (hm : MakesBranch makeBranch) (harm : arm.Stoppable)
    (side : BranchSide) : (Step.detour makeBranch side arm).Stoppable where
  tidy := .detour hm.forks harm.tidy side
  heeds _ := heeds_fork hm.calm hm.forks (fun p => Silent.calm fun s => Traces.branch p side s)
    (fun _ _ hp _ _ => runs_branch hp side) fun hs hst => heeds_arm harm hs hst (by simp)

theorem choice (c : Expr) {onTrue onFalse : Step Bool} (ht : onTrue.Stoppable) (hf : onFalse.Stoppable) :
    (Step.choice c onTrue onFalse).Stoppable where
  tidy := .choice (forks_condition c _) (forks_condition c _) ht.tidy hf.tidy
  heeds _ := by
    refine heeds_fork (MakesBranch.condition c .onTrue).calm (forks_condition c .onTrue)
      (fun _ => (MakesBranch.condition c .onFalse).calm) (fun _ s _ => forks_condition c .onFalse s)
      fun hs hst => (heeds_arm ht hs hst (by simp)).bind (fun ok u hu hok => ?_) fun ok hok => ?_
    · obtain rfl : ok = true := hok
      exact heeds_arm hf hs ((runs_arm ht.tidy hs hst (by simp)).of_ok hu) (by simp)
    · obtain rfl : ok = false := hok
      exact ⟨.pure false, .pure rfl⟩

theorem heeds_inArm (harm : arm.Stoppable) (hs : s.ScopesLive) (hp : s.arena.isLive p) :
    (inArm p arm).Heeds Prod.fst s := by
  refine .after ((Silent.calm fun s => Traces.branch p .neutral s).heeds s) fun k t ht => ?_
  have hk : s.Carries [k] t := (runs_branch (E := fun _ _ => True) hp .neutral).of_ok ht
  exact (heeds_arm harm hs hk (by simp)).thenSilent (fun _ => .pure _) fun _ => .pure rfl

theorem carries_inArm (harm : arm.Stoppable) (hs : s.ScopesLive) (hp : s.arena.isLive p) {r : Bool × Handle}
    (ht : inArm p arm s = (.ok r, t)) : s.Carries [r.2] t := by
  have hruns : (inArm p arm).Runs s (fun r t => s.Carries [r.2] t) s.Aborted :=
    Runs.next (runs_branch hp .neutral) fun k t₁ hk => Runs.next (runs_arm harm.tidy hs hk (by simp))
      fun ok t₂ h₂ => Runs.pure h₂
  exact hruns.of_ok ht

/-- Arms are analysed one after the other, up to one that stops. -/
theorem heeds_analyzeArms (hms : ∀ m ∈ ms, m.Stoppable) (hs : s.ScopesLive) (hp : s.arena.isLive p) :
    (analyzeArms p ms).Heeds Prod.fst s := by
  induction ms generalizing s with
  | nil => exact (Silent.pure _).heeds (.pure rfl) s
  | cons m ms ih =>
    have hm := hms m mem_cons_self
    refine (heeds_inArm hm hs hp).bind ?_ ?_
    · rintro ⟨ok, k⟩ t ht hok
      obtain rfl : ok = true := hok
      have hk : s.Carries [k] t := carries_inArm hm hs hp ht
      exact (ih (fun m hm => hms m (mem_cons_of_mem _ hm)) (hk.scopesLive hs) (hk.isLive hp)).thenSilent
        (fun _ => .pure _) fun _ => .pure rfl
    · rintro ⟨ok, k⟩ hok
      obtain rfl : ok = false := hok
      exact ⟨.pure _, .pure rfl⟩

theorem switchArms (hms : ∀ m ∈ ms, m.Stoppable) (hasDefault : Bool) :
    (PhpFlow.switchArms hasDefault ms).Stoppable where
  tidy := .switchArms (fun m hm => (hms m hm).tidy) hasDefault
  heeds s hs hc := by
    refine .after ((Calm.getFault _).heeds s) fun p t ht => ?_
    obtain ⟨hp, rfl⟩ := Prod.mk.inj ht
    refine (heeds_analyzeArms hms hs (hs.current hp)).thenSilent ?_ ?_
    · rintro ⟨ok, ks⟩
      have hmerge : ∀ js, (do Step.merge p (ks ++ js); return ok : Step Bool).Silent := fun js =>
        .bind (Traces.merge p (ks ++ js)) fun _ => .pure ok
      cases hasDefault with
      | true => exact .bind (.pure []) hmerge
      | false => exact .bind (Traces.branch p .neutral) fun k => .bind (.pure [k]) hmerge
    · rintro ⟨ok, ks⟩
      cases hasDefault with
      | true => exact .bind fun _ => .bind fun _ => .pure rfl
      | false => exact .bind fun _ => .bind fun _ => .bind fun _ => .pure rfl

end Answers

end Lawful

end Step

open Step (Calm Silent Lawful Harmless Stoppable)

section Steps

variable {α : Type} {body : Step Bool} {m : Step α}

end Steps

section Statements

end Statements

section Declarations

def Stmt.isDeclaration : Stmt → Bool
  | .function _ | .method _ | .class_ _ _ _ _ _ _ => true
  | _ => false

theorem Stmt.gives_true {d : Stmt} (hd : d.isDeclaration) (where_ : NodeKind) :
    (d.analyze where_).Gives (· = true) := by
  cases d with
  | function f => exact .guarded (.thenContinue _) f.range rfl
  | method m =>
    obtain ⟨f, isStatic⟩ := m
    exact .guarded (.thenContinue _) f.range rfl
  | class_ => exact .bind fun _ => .bind fun _ => .pure rfl
  | _ => cases hd

end Declarations

end PhpFlow
