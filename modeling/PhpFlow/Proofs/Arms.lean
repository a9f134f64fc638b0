import PhpFlow.Proofs.Conditions

/-!
# Constructs with arms

Each arm of a construct works in a copy of the current scope and takes up the numbers of writes where the arm
before it has left off. Where an arm has to stop, the arms after it are left as they are. So what a construct
does is known from what merging makes of arms that were run one after the other.
-/
namespace PhpFlow

def Variable.unnarrowed (v : Variable) : Variable := { v with narrowed := none }

/-- The scope `arm` has the variables of `sc`, but for what is narrowed. -/
def Scope.CopiedTo (sc arm : Scope) : Prop :=
  arm.vars.map Variable.unnarrowed = sc.vars.map Variable.unnarrowed

section Copies

variable {α : Type} {sc arm : Scope} {f : Variable → α}

theorem Scope.CopiedTo.of_vars (h : arm.vars = sc.vars) : sc.CopiedTo arm := congrArg _ h

/-- A copy has in common with the scope what does not depend on narrowing. -/
theorem Scope.CopiedTo.map_vars (h : sc.CopiedTo arm) (hf : ∀ v, f v.unnarrowed = f v) :
    arm.vars.map f = sc.vars.map f := by
  simpa [Function.comp_def, hf] using congrArg (List.map f) h

theorem Scope.CopiedTo.map_var? (h : sc.CopiedTo arm) (hf : ∀ v, f v.unnarrowed = f v) (x : String) :
    (arm.var? x).map f = (sc.var? x).map f := by
  have hfind : ∀ sc : Scope, (sc.var? x).map Variable.unnarrowed =
      (sc.vars.map Variable.unnarrowed).find? fun v => v.name = x := fun sc => by
    rw [List.find?_map]
    rfl
  have hvar : (arm.var? x).map Variable.unnarrowed = (sc.var? x).map Variable.unnarrowed := by
    rw [hfind, hfind, h]
  simpa [Function.comp_def, hf] using congrArg (Option.map f) hvar

theorem Scope.CopiedTo.trail (h : sc.CopiedTo arm) (x : String) : arm.trail x = sc.trail x := by
  rw [Scope.trail, h.map_var? (fun _ => rfl), Scope.trail]

theorem Scope.copiedTo_narrowed {n : String} {v : Variable} (hv : sc.var? n = some v) (u : TypeUnion) :
    sc.CopiedTo (sc.narrowed n u) := by
  have h : ∀ vs : List Variable, vs.find? (fun v => v.name = n) = some v →
      (Scope.update (fun v => { v with narrowed := some u }) n vs).map Variable.unnarrowed =
        vs.map Variable.unnarrowed := by
    intro vs
    induction vs with
    | nil => simp
    | cons w ws ih =>
      intro hw
      by_cases hn : w.name = n
      · simp [Scope.update, hn, Variable.unnarrowed]
      · simp only [List.find?_cons, hn, decide_false] at hw
        simp [Scope.update, hn, ih hw]
  exact h sc.vars hv

/-- Narrowing leaves of each variable all but what it narrows. -/
theorem Narrows.copiedTo {ν : Names} {c : Expr} {side : BranchSide} (h : Narrows ν c side sc arm) :
    sc.CopiedTo arm := by
  induction h with
  | same hvars => exact .of_vars hvars
  | truth hv _ hvars | null _ _ _ hv _ hvars | «instance» _ _ _ hv _ hvars =>
    exact (Scope.CopiedTo.of_vars hvars).trans (Scope.copiedTo_narrowed hv _)
  | paren _ ih => exact ih
  | not _ ih => exact ih
  | both _ _ _ _ iha ihb => exact ihb.trans iha

end Copies

namespace Step

abbrev Outcome := Local → Bool → Local → Prop

/-- The step makes a copy of the scope `h`, if that is the current one. -/
def Copies (h : Handle) (m : Step Handle) : Prop :=
  ∀ s sc, s.Working h sc → m.Ends s
    (fun k t => Opened k s t ∧ ∃ arm, t.arena.scope? k = some arm ∧ sc.CopiedTo arm)
    (fun t => t.stack = s.stack)

theorem copies_branch (h : Handle) (side : BranchSide) : (Step.branch h side).Copies h := by
  intro s sc w
  refine (ends_branch w.scope w.placed side).mono ?_ fun _ he => he
  rintro k t ⟨o, -, arm, harm, hvars⟩
  exact ⟨o, arm, harm, .of_vars hvars⟩

end Step

theorem MakesBranch.copies {m : Step Handle} (hm : MakesBranch m) (h : Handle) : m.Copies h := by
  intro s sc w
  refine (hm.narrows s h sc w).mono ?_ fun _ he => he
  rintro k t ⟨o, arm, harm, c, side, hn⟩
  exact ⟨o, arm, harm, hn.copiedTo⟩

namespace Step

/-- Arms one after the other, each in a copy of `sc`, up to one that has to stop: `n` and `ρ` are the number
of the next write and the rest of the state before, and the scopes of all the arms come out. -/
inductive ArmsRun (sc : Scope) : List Outcome → Nat → State → Bool → List Scope → Nat → State → Prop
  | nil (n : Nat) (ρ : State) : ArmsRun sc [] n ρ true [] n ρ
  | stop {Φ : Outcome} {Φs : List Outcome} {n : Nat} {ρ : State} {arm : Scope} {m : Local} {left : List Scope}
      (harm : sc.CopiedTo arm) (hΦ : Φ ⟨arm, n, ρ⟩ false m) (hleft : ∀ o ∈ left, sc.CopiedTo o) :
      ArmsRun sc (Φ :: Φs) n ρ false (m.scope :: left) m.next m.rest
  | cons {Φ : Outcome} {Φs : List Outcome} {n n' : Nat} {ρ ρ' : State} {arm : Scope} {m : Local} {ok : Bool}
      {arms : List Scope} (harm : sc.CopiedTo arm) (hΦ : Φ ⟨arm, n, ρ⟩ true m)
      (hrest : ArmsRun sc Φs m.next m.rest ok arms n' ρ') :
      ArmsRun sc (Φ :: Φs) n ρ ok (m.scope :: arms) n' ρ'

theorem ArmsRun.concat {sc o : Scope} {Φs : List Outcome} {n n' : Nat} {ρ ρ' : State} {ok : Bool}
    {arms : List Scope} (h : ArmsRun sc Φs n ρ ok arms n' ρ') (ho : sc.CopiedTo o) {Ψ : Outcome}
    (hΨ : ∀ l, Ψ l true l) : ArmsRun sc (Φs ++ [Ψ]) n ρ ok (arms ++ [o]) n' ρ' := by
  induction h with
  | nil n ρ => exact .cons (m := ⟨o, n, ρ⟩) ho (hΨ _) (.nil n ρ)
  | stop harm hΦ hleft => exact .stop harm hΦ (List.forall_mem_append.mpr ⟨hleft, by simpa using ho⟩)
  | cons harm hΦ _ ih => exact .cons harm hΦ ih

def Armed (Φs : List Outcome) : Outcome := fun l ok l' =>
  ∃ k arms, ArmsRun l.scope Φs l.next { l.rest with sink := k } ok arms l'.next l'.rest ∧
    l'.scope = l.scope.merge arms

section Constructs

variable {Φ Ψ : Outcome} {Φs : List Outcome} {a b : Step Bool} {ms : List (Step Bool)} {s t : State} {sc : Scope}

theorem Acts.andThen (ha : a.Acts Φ) (hb : b.Acts Ψ) : (Step.andThen a b).Acts fun l ok l' =>
    Φ l false l' ∧ ok = false ∨ ∃ m, Φ l true m ∧ Ψ m ok l' := by
  have hnext : ∀ go : Bool, (if go then b else Pure.pure false : Step Bool).Acts fun l ok l' =>
      if go then Ψ l ok l' else ok = false ∧ l' = l := by
    intro go
    cases go with
    | true => exact hb
    | false => exact Acts.pure false
  refine (Acts.bind ha hnext).mono ?_
  rintro l ok l' ⟨go, m, hΦ, hnext⟩
  cases go with
  | true => exact .inr ⟨m, hΦ, hnext⟩
  | false =>
    obtain ⟨rfl, rfl⟩ := hnext
    exact .inl ⟨hΦ, rfl⟩

/-- Work in two new branches, which are merged afterwards. -/
theorem Acts.fork {first : Step Handle} {second : Handle → Step Handle} {work : Handle → Handle → Step Bool}
    (hfirst : ∀ h, first.Copies h) (hsecond : ∀ h, (second h).Copies h)
    (hwork : ∀ {s t sc k₁ k₂ arm₁ arm₂}, Forked [k₁, k₂] [arm₁, arm₂] s t → sc.CopiedTo arm₁ → sc.CopiedTo arm₂ →
      (work k₁ k₂).Ends t
        (fun ok u => ∃ arms, Forked [k₁, k₂] arms s u ∧
          ArmsRun sc Φs t.arena.nextWrite t.rest ok arms u.arena.nextWrite u.rest)
        (fun u => u.stack = s.stack)) : (Step.fork first second work).Acts (Armed Φs) := by
  intro s h sc w
  apply Runs.bind
  refine Runs.getFault w.handle ?_
  refine Ends.next (hfirst h s sc w) ?_
  rintro k₁ t₁ ⟨o₁, arm₁, harm₁, hcopy₁⟩
  have f₁ := (Forked.none w.placed).opened o₁ harm₁
  refine Ends.next (hsecond h t₁ sc (f₁.working w)) ?_ fun _ ht => ht.trans f₁.stack
  rintro k₂ t₂ ⟨o₂, arm₂, harm₂, hcopy₂⟩
  refine Ends.next (hwork (f₁.opened o₂ harm₂) hcopy₁ hcopy₂) ?_
  rintro ok t₃ ⟨arms, f₃, hrun⟩
  refine Ends.next (ends_merge f₃ w) ?_
  rintro - t₄ ⟨hd, hm, hnext, hrest⟩
  refine Runs.pure ⟨hd, _, hm, t₂.sink, arms, ?_, rfl⟩
  have hbefore : t₂.rest = { s.rest with sink := t₂.sink } := by rw [o₂.rest, o₁.rest]
  rw [o₂.next, o₁.next, hbefore, ← hnext, ← hrest] at hrun
  exact hrun

theorem Acts.detour {makeBranch : Step Handle} (hm : MakesBranch makeBranch) (ha : a.Acts Φ)
    (hΨ : ∀ l, Ψ l true l) (side : BranchSide) : (Step.detour makeBranch side a).Acts (Armed [Φ, Ψ]) := by
  refine .fork hm.copies (fun h => copies_branch h side) fun {s t sc k₁ k₂ arm₁ arm₂} f hcopy₁ hcopy₂ => ?_
  refine (ha.inScope (List.forall₂_cons.mp f.arms).1 f.placed).mono ?_ fun _ ht => ht.trans f.stack
  rintro ok u ⟨hu, arm, harm, hΦ⟩
  refine ⟨[arm, arm₂], f.worked [] [] rfl hu harm, ?_⟩
  cases ok with
  | false => exact .stop hcopy₁ hΦ (by simpa using hcopy₂)
  | true => exact .concat (.cons hcopy₁ hΦ (.nil _ _)) hcopy₂ hΨ

theorem Acts.choice (c : Expr) (ha : a.Acts Φ) (hb : b.Acts Ψ) :
    (Step.choice c a b).Acts (Armed [Φ, Ψ]) := by
  refine .fork (MakesBranch.condition c .onTrue).copies (MakesBranch.condition c .onFalse).copies
    fun {s t sc k₁ k₂ arm₁ arm₂} f hcopy₁ hcopy₂ => ?_
  refine Ends.next (ha.inScope (List.forall₂_cons.mp f.arms).1 f.placed) ?_ fun _ ht => ht.trans f.stack
  rintro ok u ⟨hu, arm, harm, hΦ⟩
  have f' := f.worked [] [] rfl hu harm
  cases ok with
  | false => exact Runs.pure ⟨_, f', .stop hcopy₁ hΦ (by simpa using hcopy₂)⟩
  | true =>
    have hk₂ := (List.forall₂_cons.mp (List.forall₂_cons.mp f'.arms).2).1
    refine (hb.inScope hk₂ f'.placed).mono ?_ fun _ ht => ht.trans f'.stack
    rintro ok v ⟨hv, arm', harm', hΨ⟩
    refine ⟨[arm, arm'], f'.worked [k₁] [arm] rfl hv harm', .cons hcopy₁ hΦ ?_⟩
    cases ok with
    | false => exact .stop hcopy₂ hΨ (by simp)
    | true => exact .cons hcopy₂ hΨ (.nil _ _)

theorem ends_analyzeArms (hms : List.Forall₂ (fun m Φ => m.Acts Φ) ms Φs) {h : Handle} (w : s.Working h sc)
    {ks : List Handle} {done : List Scope} (f : Forked ks done s t) :
    (analyzeArms h ms).Ends t
      (fun r u => ∃ arms, Forked (ks ++ r.2) (done ++ arms) s u ∧
        ArmsRun sc Φs t.arena.nextWrite t.rest r.1 arms u.arena.nextWrite u.rest)
      (fun u => u.stack = s.stack) := by
  induction hms generalizing t ks done with
  | nil =>
    refine Runs.pure ⟨[], ?_, .nil _ _⟩
    simpa using f
  | @cons m Φ ms Φs hm _ ih =>
    apply Runs.bind
    refine Ends.next (ends_branch (f.working w).scope f.placed .neutral) ?_
    rintro k t₁ ⟨o, hsink, arm, harm, hvars⟩
    have f₁ := f.opened o harm
    refine Ends.next (hm.inScope harm f₁.placed) ?_ fun _ ht => ht.trans f₁.stack
    rintro ok t₂ ⟨hu, arm', harm', hΦ⟩
    have f₂ := f₁.worked ks done f.arms.length_eq hu harm'
    have hview : t₁.localView arm = ⟨arm, t.arena.nextWrite, t.rest⟩ := by
      have hrest : t₁.rest = t.rest := by
        rw [o.rest, hsink]
        rfl
      simp only [State.localView, o.next, hrest]
    rw [hview] at hΦ
    have hcopy : sc.CopiedTo arm := .of_vars hvars
    refine Runs.pure ?_
    cases ok with
    | false => exact Runs.pure ⟨[arm'], f₂, .stop hcopy hΦ (by simp)⟩
    | true =>
      refine Ends.next (ih f₂) ?_
      rintro ⟨ok, hs⟩ u ⟨arms, f₃, hrun⟩
      refine Runs.pure ⟨arm' :: arms, ?_, .cons hcopy hΦ hrun⟩
      simpa using f₃

theorem Acts.switchArms (hms : List.Forall₂ (fun m Φ => m.Acts Φ) ms Φs) (hΨ : ∀ l, Ψ l true l)
    (hasDefault : Bool) :
    (PhpFlow.switchArms hasDefault ms).Acts (Armed (Φs ++ if hasDefault then [] else [Ψ])) := by
  intro s h sc w
  apply Runs.bind
  refine Runs.getFault w.handle ?_
  refine Ends.next (ends_analyzeArms hms w (Forked.none w.placed)) ?_
  rintro ⟨ok, ks⟩ t ⟨arms, f, hrun⟩
  -- All branches are there, and what is left is to merge them.
  have hmerge : ∀ {Φs} js others {u : State}, Forked (ks ++ js) (arms ++ others) s u →
      ArmsRun sc Φs s.arena.nextWrite s.rest ok (arms ++ others) u.arena.nextWrite u.rest →
      (do Step.merge h (ks ++ js); Pure.pure ok : Step Bool).Ends u
        (fun ok v => Undisturbed h s v ∧ ∃ sc', v.arena.scope? h = some sc' ∧
          Armed Φs (s.localView sc) ok (v.localView sc')) fun v => v.stack = s.stack := by
    intro Φs js others u f' hrun'
    refine Ends.next (ends_merge f' w) ?_
    rintro - v ⟨hd, hm, hnext, hrest⟩
    rw [← hnext, ← hrest] at hrun'
    exact Runs.pure ⟨hd, _, hm, s.sink, _, hrun', rfl⟩
  cases hasDefault with
  | true => exact hmerge [] [] (by simpa using f) (by simpa using hrun)
  | false =>
    refine Ends.next (ends_branch (f.working w).scope f.placed .neutral) ?_
    rintro k u ⟨o, hsink, arm, harm, hvars⟩
    refine hmerge [k] _ (f.opened o harm) ?_
    have hrest : u.rest = t.rest := by
      rw [o.rest, hsink]
      rfl
    rw [o.next, hrest]
    exact hrun.concat (.of_vars hvars) hΨ

end Constructs

end Step

end PhpFlow
