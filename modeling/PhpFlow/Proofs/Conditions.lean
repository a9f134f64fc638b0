import PhpFlow.Proofs.Branching
import PhpFlow.Proofs.Forking

/-!
# What a condition narrows

A branch made for an outcome of a condition has the variables of the scope it comes from, some of them
with a narrowed type. The relation `Narrows` lists the ways in which that happens, and the branch of any
condition is made in one of them.
-/
namespace PhpFlow

variable {s t : State} {N : Scope → Prop} {r : Option Handle}

def Scope.narrowed (sc : Scope) (name : String) (u : TypeUnion) : Scope :=
  sc.updateVar name fun v => { v with narrowed := some u }

/-- The query has the answer `a` wherever `sc` is the current scope and names stand for `ν`. -/
def Query.AnswersIn {α : Type} (q : Query α) (ν : Names) (sc : Scope) (a : α) : Prop :=
  ∃ s h, s.Working h sc ∧ s.names = ν ∧ (q s).1 = .ok a

def Operator.isComparison : Operator → Bool
  | .equal | .notEqual | .identical | .notIdentical => true
  | _ => false

/-- One operand is the variable `n`, and the other is known to be null. -/
def NullTested (ν : Names) (sc : Scope) (a b : Expr) (n : String) : Prop :=
  (a.variableName? = some n ∧ b.value.AnswersIn ν sc (some .null)) ∨
    (b.variableName? = some n ∧ a.value.AnswersIn ν sc (some .null))

/-- The scope `arm` is `sc` with types narrowed by the condition having the outcome `side`. -/
inductive Narrows (ν : Names) : Expr → BranchSide → Scope → Scope → Prop
  | same {c : Expr} {side : BranchSide} {sc arm : Scope} (hvars : arm.vars = sc.vars) :
      Narrows ν c side sc arm
  | truth {r : Range} {n : String} {side : BranchSide} {sc arm : Scope} {v : Variable} {u : TypeUnion}
      (hv : sc.var? n = some v) (hu : refineTruth side v.flowType = some u)
      (hvars : arm.vars = (sc.narrowed n u).vars) : Narrows ν (.var r n) side sc arm
  | paren {r : Range} {a : Expr} {side : BranchSide} {sc arm : Scope} (h : Narrows ν a side sc arm) :
      Narrows ν (.paren r a) side sc arm
  | not {r : Range} {a : Expr} {side : BranchSide} {sc arm : Scope} (h : Narrows ν a side.flip sc arm) :
      Narrows ν (.unary r "!" a) side sc arm
  | both {r : Range} {a b : Expr} {token : String} {op : Operator} {side : BranchSide}
      {sc mid arm : Scope} (hop : Operator.ofToken? token = some op) (hboth : op.needsBoth side)
      (ha : Narrows ν a side sc mid) (hb : Narrows ν b side mid arm) :
      Narrows ν (.binary r a token b) side sc arm
  | null {r : Range} {a b : Expr} {token n : String} {op : Operator} {side : BranchSide}
      {sc arm : Scope} {v : Variable} {u : TypeUnion} (hop : Operator.ofToken? token = some op)
      (hcomp : op.isComparison) (hnull : NullTested ν sc a b n) (hv : sc.var? n = some v)
      (hu : v.flowType = some u)
      (hvars : arm.vars =
        (sc.narrowed n (refineNull op.isStrict (op.isEquality == (side == .onTrue)) u)).vars) :
      Narrows ν (.binary r a token b) side sc arm
  | instance {r : Range} {a b : Expr} {token n : String} {c : QualifiedName} {side : BranchSide}
      {sc arm : Scope} {v : Variable} {u : TypeUnion}
      (hop : Operator.ofToken? token = some .instanceOf)
      (hclass : ∃ s : State, s.names = ν ∧ b.name?.map s.resolveClass = some c)
      (hn : a.variableName? = some n) (hv : sc.var? n = some v)
      (hu : refineInstance ν.symbols.derives c side v.flowType = some u)
      (hvars : arm.vars = (sc.narrowed n u).vars) : Narrows ν (.binary r a token b) side sc arm

theorem State.names_congr (h : t.rest = s.rest) : t.names = s.names := by
  change t.rest.names = s.rest.names
  rw [h]

structure Noted (s t : State) : Prop where
  stack : t.stack = s.stack
  arena : t.arena = s.arena
  rest : t.rest = { s.rest with sink := t.sink }

namespace Noted

variable {s t : State}

theorem refl (s : State) : Noted s s := ⟨rfl, rfl, rfl⟩

theorem sink (s : State) (k : Sink) : Noted s { s with sink := k } := ⟨rfl, rfl, rfl⟩

theorem trans {u : State} (h : Noted s t) (h' : Noted t u) : Noted s u :=
  ⟨h'.stack.trans h.stack, h'.arena.trans h.arena, by rw [h'.rest, h.rest]⟩

theorem opened {u : State} {k : Handle} (h : Noted s t) (o : Opened k t u) : Opened k s u := by
  refine ⟨o.stack.trans h.stack, ?_, ?_, o.placed, ?_, ?_⟩
  · rw [← h.arena]
    exact o.fresh
  · intro j hj
    rw [o.others j hj, h.arena]
  · rw [o.next, h.arena]
  · rw [o.rest, h.rest]

theorem names (h : Noted s t) : t.names = s.names := by
  change t.rest.names = s.rest.names
  rw [h.rest]
  rfl

end Noted

namespace Opened

variable {s t : State} {k : Handle}

theorem noted {u : State} (o : Opened k s t) (h : Noted t u) : Opened k s u := by
  refine ⟨h.stack.trans o.stack, o.fresh, ?_, ?_, ?_, ?_⟩
  · intro j hj
    rw [h.arena, o.others j hj]
  · rw [h.arena]
    exact o.placed
  · rw [h.arena, o.next]
  · rw [h.rest, o.rest]

theorem names (o : Opened k s t) : t.names = s.names := by
  change t.rest.names = s.rest.names
  rw [o.rest]
  rfl

/-- A branch of a branch stays when the first is discarded. -/
theorem discarded {u : State} {j : Handle} (o : Opened k s t) (o' : Opened j t u) :
    Opened j s { u with arena := u.arena.discard k } := by
  have hother : ∀ i, ({ u with arena := u.arena.discard k } : State).arena.scope? i =
      if i = k then none else u.arena.scope? i := Arena.scope?_discard u.arena k
  have hfresh : s.arena.scope? j = none := by
    by_cases hj : j = k
    · rw [hj]
      exact o.fresh
    · rw [← o.others j hj]
      exact o'.fresh
  refine ⟨o'.stack.trans o.stack, hfresh, ?_, o'.placed.discard k, ?_, ?_⟩
  · intro i hi
    rw [hother]
    split
    · next hk => rw [hk, o.fresh]
    · next hk => rw [o'.others i hi, o.others i hk]
  · exact (Arena.nextWrite_discard u.arena k).trans (o'.next.trans o.next)
  · have hrest : ({ u with arena := u.arena.discard k } : State).rest = u.rest := rfl
    rw [hrest, o'.rest, o.rest]

end Opened

/-- How an attempt to narrow the scope `sc` ends: nothing is said and nothing has changed, or there is a
new scope as `N` says. -/
def Attempted (N : Scope → Prop) (s : State) : Option Handle → State → Prop
  | none, t => Noted s t
  | some k, t => Opened k s t ∧ ∃ arm, t.arena.scope? k = some arm ∧ N arm

theorem Attempted.mono {N' : Scope → Prop} (h : Attempted N s r t) (hN : ∀ arm, N arm → N' arm) :
    Attempted N' s r t := by
  cases r with
  | none => exact h
  | some k =>
    obtain ⟨o, arm, harm, hn⟩ := h
    exact ⟨o, arm, harm, hN arm hn⟩

/-- What was attempted in a state that has the scope entered holds of the state around it. -/
theorem Attempted.left {s₁ u : State} (h : Attempted N s₁ r t) (harena : s₁.arena = s.arena)
    (hrest : s₁.rest = s.rest) (hs : u.stack = s.stack) (ha : u.arena = t.arena) (hr : u.rest = t.rest) :
    Attempted N s r u := by
  have hsink : u.sink = t.sink := by
    change u.rest.sink = t.rest.sink
    rw [hr]
  cases r with
  | none => exact ⟨hs, ha.trans (h.arena.trans harena), by rw [hr, h.rest, hrest, hsink]⟩
  | some k =>
    obtain ⟨o, arm, harm, hn⟩ := h
    refine ⟨⟨hs, ?_, ?_, ?_, ?_, ?_⟩, arm, ?_, hn⟩
    · rw [← harena]
      exact o.fresh
    · intro j hj
      rw [ha, o.others j hj, harena]
    · rw [ha]
      exact o.placed
    · rw [ha, o.next, harena]
    · rw [hr, o.rest, hrest, hsink]
    · rw [ha]
      exact harm

theorem Attempted.stack (h : Attempted N s r t) : t.stack = s.stack := by
  cases r with
  | none => exact Noted.stack h
  | some k => exact h.1.stack

namespace Step

variable {s : State} {p : Handle} {sc : Scope}
variable {ν : Names}

/-- A variable with a type that can be refined is narrowed in a new branch. -/
theorem ends_narrowed (hp : s.arena.scope? p = some sc) (hplaced : s.arena.Placed) (side : BranchSide)
    {name : String} {refine : Option TypeUnion → Option TypeUnion} {v : Variable} {u : TypeUnion}
    (hv : sc.var? name = some v) (hu : refine v.flowType = some u) {E : State → Prop} :
    (narrowVariable p side name refine).Ends s
      (fun r t => ∃ k, r = some k ∧ Opened k s t ∧ t.sink = s.sink ∧
        ∃ arm, t.arena.scope? k = some arm ∧ arm.vars = (sc.narrowed name u).vars) E := by
  apply Runs.bind
  refine Runs.getFault (Arena.get_of_scope? hp) ?_
  simp only [hv, hu]
  apply Runs.bind
  refine (ends_branch hp hplaced side).mono ?_ fun _ ht => ht
  rintro k t ⟨o, hsink, arm, harm, hvars⟩
  apply Runs.bind
  have hput := Arena.scope?_put_of_scope? (t := arm.narrowed name u) harm (o.placed k arm harm)
  refine Runs.onArena (a := ()) (b := t.arena.put (arm.narrowed name u)) ?_ (Runs.pure ?_)
  · rw [Arena.updateVar_eq harm]
    rfl
  · refine ⟨k, rfl, ⟨o.stack, o.fresh, ?_, o.placed.put _, ?_, o.rest⟩, hsink, arm.narrowed name u, ?_, ?_⟩
    · intro j hj
      rw [hput, if_neg hj, o.others j hj]
    · exact (Arena.nextWrite_put _ _).trans o.next
    · rw [hput, if_pos rfl]
    · simp only [Scope.narrowed, Scope.updateVar, hvars]

/-- A variable that is unknown, or about which nothing can be said, is left alone. -/
theorem narrowVariable_eq_none (hp : s.arena.scope? p = some sc) (side : BranchSide) {name : String}
    {refine : Option TypeUnion → Option TypeUnion}
    (h : ∀ v, sc.var? name = some v → refine v.flowType = none) :
    narrowVariable p side name refine s = (.ok none, s) := by
  have hget : s.arena.get p = .ok sc := Arena.get_of_scope? hp
  cases hv : sc.var? name with
  | none => simp [narrowVariable, Bind.bind, Step.bind, Step.getFault, hget, hv, Pure.pure, Step.pure]
  | some v => simp [narrowVariable, Bind.bind, Step.bind, Step.getFault, hget, hv, h v hv, Pure.pure, Step.pure]

theorem ends_narrowVariable (hp : s.arena.scope? p = some sc) (hplaced : s.arena.Placed)
    (side : BranchSide) (name : String) (refine : Option TypeUnion → Option TypeUnion) {E : State → Prop} :
    (narrowVariable p side name refine).Ends s
      (Attempted (fun arm => ∃ v u, sc.var? name = some v ∧ refine v.flowType = some u ∧
        arm.vars = (sc.narrowed name u).vars) s) E := by
  by_cases h : ∃ v u, sc.var? name = some v ∧ refine v.flowType = some u
  · obtain ⟨v, u, hv, hu⟩ := h
    refine (ends_narrowed hp hplaced side hv hu).mono ?_ fun _ ht => ht
    rintro _ t ⟨k, rfl, o, -, arm, harm, hvars⟩
    exact ⟨o, arm, harm, v, u, hv, hu, hvars⟩
  · refine Runs.of_eq (narrowVariable_eq_none hp side fun v hv => ?_) (Noted.refl s)
    cases hu : refine v.flowType with
    | none => rfl
    | some u => exact (h ⟨v, u, hv, hu⟩).elim

theorem eq_null {v : Option Value} (h : (v.map Value.isNull).getD false = true) : v = some .null := by
  rcases v with _ | _ | _ | _ | _ | _ | _ | _ <;> first | rfl | cases h

section Operations

variable (w : s.Working p sc) (hν : s.names = ν) (r : Range) (a b : Expr) (token : String)

include w hν

theorem ends_narrowNull {op : Operator} (hop : Operator.ofToken? token = some op) (hcomp : op.isComparison)
    (side : BranchSide) : (op.narrowNull (.ofExprs r a b a.meaning b.meaning) p side).Ends s
      (Attempted (Narrows ν (.binary r a token b) side sc) s) (fun t => t.stack = s.stack) := by
  -- Once a variable is known to be compared with null, what is left is to narrow it.
  have hlast : ∀ (n : String) (t : State), Noted s t → NullTested ν sc a b n →
      (narrowVariable p side n fun u =>
        u.map (refineNull op.isStrict (op.isEquality == (side == .onTrue)))).Ends t
        (Attempted (Narrows ν (.binary r a token b) side sc) s) (fun t => t.stack = s.stack) := by
    intro n t ht hnull
    refine (ends_narrowVariable (by rw [ht.arena]; exact w.scope) (by rw [ht.arena]; exact w.placed)
      side n _).mono ?_ fun _ he => he
    rintro (_ | k) u hu
    · exact ht.trans hu
    · obtain ⟨o, arm, harm, v, u', hv, hu', hvars⟩ := hu
      obtain ⟨u₀, hu₀, rfl⟩ := Option.map_eq_some_iff.mp hu'
      exact ⟨ht.opened o, arm, harm, .null hop hcomp hnull hv hu₀ hvars⟩
  apply Runs.bind
  refine ends_query b.numericFaults_value ?_ fun _ => rfl
  intro right k hright
  split
  · next hr =>
    refine Runs.bind (Runs.pure ?_)
    cases hn : a.variableName? with
    | none =>
      simp only [Operands.ofExprs, hn]
      exact Runs.pure (Noted.sink s k)
    | some n =>
      have hnull : NullTested ν sc a b n := .inl ⟨hn, s, p, w, hν, eq_null hr ▸ hright⟩
      simpa [Operands.ofExprs, hn] using hlast n _ (Noted.sink s k) hnull
  · apply Runs.bind
    refine ends_query a.numericFaults_value ?_ fun _ => rfl
    intro left k' hleft
    split
    · next hl =>
      refine Runs.bind (Runs.pure ?_)
      cases hn : b.variableName? with
      | none =>
        simp only [Operands.ofExprs, hn]
        exact Runs.pure (Noted.sink s k')
      | some n =>
        have hw : ({ s with sink := k } : State).Working p sc := ⟨w.handle, w.scope, w.placed⟩
        have hnull : NullTested ν sc a b n := .inr ⟨hn, _, p, hw, hν, eq_null hl ▸ hleft⟩
        simpa [Operands.ofExprs, hn] using hlast n _ (Noted.sink s k') hnull
    · exact Runs.bind (Runs.pure (Runs.pure (Noted.sink s k')))

theorem ends_narrowInstance (hop : Operator.ofToken? token = some .instanceOf) (side : BranchSide) :
    (Operator.narrowInstance (.ofExprs r a b a.meaning b.meaning) p side).Ends s
      (Attempted (Narrows ν (.binary r a token b) side sc) s) (fun t => t.stack = s.stack) := by
  apply Runs.bind
  refine ends_query (.ask _) ?_ fun _ => rfl
  intro c k hc
  split
  · next n c hn =>
    have hclass : b.name?.map s.resolveClass = some c := Except.ok.inj hc
    refine Runs.bind (Runs.get ?_)
    have hv := ends_narrowVariable (s := { s with sink := k }) w.scope w.placed side n
      (refineInstance s.symbols.derives c side) (E := fun t => t.stack = s.stack)
    refine hv.mono ?_ fun _ he => he
    rintro (_ | j) t ht
    · exact (Noted.sink s k).trans ht
    · obtain ⟨o, arm, harm, v, u, hv, hu, hvars⟩ := ht
      subst hν
      exact ⟨(Noted.sink s k).opened o, arm, harm, .instance hop ⟨s, rfl, hclass⟩ hn hv hu hvars⟩
  · exact Runs.pure (Noted.sink s k)

/-- An operation narrows what `Narrows` says, or nothing. -/
theorem ends_narrowOperation {op : Operator} (hop : Operator.ofToken? token = some op) (side : BranchSide) :
    (op.narrow (.ofExprs r a b a.meaning b.meaning) p side).Ends s
      (Attempted (Narrows ν (.binary r a token b) side sc) s) (fun t => t.stack = s.stack) := by
  cases op with
  | equal | notEqual | identical | notIdentical => exact ends_narrowNull w hν r a b token hop rfl side
  | instanceOf => exact ends_narrowInstance w hν r a b token hop side
  | _ => exact Runs.pure (Noted.refl s)

end Operations

/-- A condition narrows what `Narrows` says, or nothing. -/
theorem ends_narrow (c : Expr) {s : State} {p : Handle} {sc : Scope} (hp : s.arena.scope? p = some sc)
    (hplaced : s.arena.Placed) {ν : Names} (hν : s.names = ν) (side : BranchSide) :
    (c.narrow p side).Ends s (Attempted (Narrows ν c side sc) s) (fun t => t.stack = s.stack) := by
  cases c with
  | paren r a =>
    refine (ends_narrow a hp hplaced hν side).mono ?_ fun _ he => he
    exact fun _ _ h => h.mono fun _ hn => .paren hn
  | unary r op a =>
    rw [Expr.narrow]
    split
    · next hop =>
      subst hop
      refine (ends_narrow a hp hplaced hν side.flip).mono ?_ fun _ he => he
      exact fun _ _ h => h.mono fun _ hn => .not hn
    · exact Runs.pure (Noted.refl s)
  | var r n =>
    refine (ends_narrowVariable hp hplaced side n (refineTruth side)).mono ?_ fun _ he => he
    rintro _ _ h
    refine h.mono ?_
    rintro arm ⟨v, u, hv, hu, hvars⟩
    exact .truth hv hu hvars
  | binary r a token b =>
    rw [Expr.narrow]
    split
    · exact Runs.pure (Noted.refl s)
    · next op hop =>
      split
      · next hboth =>
        refine Ends.next (ends_narrow a hp hplaced hν side) ?_
        intro first t ht
        -- The right operand is asked in what the left one has left.
        obtain ⟨mid, hmid, hna, hplaced', hν'⟩ : ∃ mid, t.arena.scope? (first.getD p) = some mid ∧
            Narrows ν a side sc mid ∧ t.arena.Placed ∧ t.names = ν := by
          cases first with
          | none =>
            have hn : Noted s t := ht
            exact ⟨sc, by rw [hn.arena]; exact hp, .same rfl, by rw [hn.arena]; exact hplaced,
              hn.names.trans hν⟩
          | some k =>
            obtain ⟨o, mid, hmid, hna⟩ := ht
            exact ⟨mid, hmid, hna, o.placed, o.names.trans hν⟩
        apply Runs.bind
        refine Ends.mono (Q := Attempted (Narrows ν b side mid) t) (E := fun u => u.stack = t.stack)
          ?_ ?_ fun _ he => he.trans ht.stack
        · refine Ends.inScope hmid hplaced' fun t₁ hw harena hrest => ?_
          have hnames : t₁.names = t.names := State.names_congr hrest
          refine (ends_narrow b hw.scope hw.placed (hnames.trans hν') side).mono ?_ fun _ he => he
          intro second u hu
          exact ⟨hu.stack, fun v hs ha hr => hu.left harena hrest hs ha hr⟩
        · rintro (_ | j) u hu
          · -- The right operand says nothing more.
            cases first with
            | none => exact Runs.pure (Noted.trans ht hu)
            | some k =>
              obtain ⟨o, arm, harm, hn⟩ := ht
              have hu' : Noted t u := hu
              refine Runs.pure ⟨o.noted hu', arm, by rw [hu'.arena]; exact harm, ?_⟩
              exact .both hop hboth hn (.same rfl)
          · obtain ⟨o', arm, harm, hnb⟩ := hu
            cases first with
            | none =>
              have ht' : Noted s t := ht
              exact Runs.pure ⟨ht'.opened o', arm, harm, .both hop hboth hna hnb⟩
            | some k =>
              obtain ⟨o, mid', hmid', -⟩ := ht
              have hjk : j ≠ k := by
                intro he
                have hfresh := o'.fresh
                rw [he, hmid'] at hfresh
                cases hfresh
              apply Runs.bind
              refine Runs.modify (Runs.pure ⟨o.discarded o', arm, ?_, .both hop hboth hna hnb⟩)
              exact (Arena.scope?_discard u.arena k j).trans ((if_neg hjk).trans harm)
      · refine Ends.inScope hp hplaced fun s₁ hw harena hrest => ?_
        have hnames : s₁.names = s.names := State.names_congr hrest
        refine (ends_narrowOperation hw (hnames.trans hν) r a b token hop side).mono ?_ fun _ he => he
        intro r t ht
        exact ⟨ht.stack, fun u hs ha hr => ht.left harena hrest hs ha hr⟩
  | _ => exact Runs.pure (Noted.refl s)

/-- Every branch for an outcome of a condition is the current scope, narrowed. -/
theorem branches_condition (c : Expr) (side : BranchSide) :
    (c.branch side).Branches fun l arm => Narrows l.rest.names c side l.scope arm := by
  intro s h sc w
  apply Runs.bind
  refine Runs.getFault w.handle ?_
  apply Runs.bind
  refine (ends_narrow c w.scope w.placed rfl side).mono ?_ fun _ he => he
  rintro (_ | k) t ht
  · have ht' : Noted s t := ht
    refine (ends_branch (by rw [ht'.arena]; exact w.scope) (by rw [ht'.arena]; exact w.placed)
      side).mono ?_ fun _ he => he
    rintro k u ⟨o, -, arm, harm, hvars⟩
    exact ⟨ht'.opened o, arm, harm, .same hvars⟩
  · obtain ⟨o, arm, harm, hn⟩ := ht
    exact Runs.pure ⟨o, arm, harm, hn⟩

end Step

/-- A branch for an outcome of a condition, or for none, has the variables of the scope, narrowed. -/
theorem MakesBranch.narrows {m : Step Handle} (hm : MakesBranch m) :
    m.Branches fun l arm => ∃ c side, Narrows l.rest.names c side l.scope arm := by
  intro s h sc w
  cases hm with
  | condition c side =>
    refine (Step.branches_condition c side s h sc w).mono ?_ fun _ he => he
    rintro k t ⟨o, arm, harm, hn⟩
    exact ⟨o, arm, harm, c, side, hn⟩
  | current side =>
    apply Step.Runs.bind
    refine Step.Runs.getFault w.handle ?_
    refine (Step.ends_branch w.scope w.placed side).mono ?_ fun _ he => he
    rintro k t ⟨o, -, arm, harm, hvars⟩
    exact ⟨o, arm, harm, .null .zero, side, .same hvars⟩

end PhpFlow
